import NellDB.Data.Iteration
import NellDB.Data.Slice
import NellDB.Store.Vector

namespace NellDB

open Data

/-! The codec of the knowledge vector as it works on a buffer.  The encoder visits
the map twice, once for the size and once for the entries, each time in an order
of its own. -/

def HLC.decodeBuffer (b : Bytes) : Option HLC := do
  let wallTime ← (slice b 0 8).bind (readUint 8)
  let counter ← (slice b 8 12).bind (readUint 4)
  return ⟨(UInt64.ofNat wallTime).toInt64, (UInt32.ofNat counter).toInt32⟩

theorem HLC.decodeBuffer_eq {b : Bytes} (sized : 12 ≤ b.length) :
    decodeBuffer b = some (decodeBinary b) := by
  have wallTime := readUint_slice (show 0 + 8 ≤ b.length by omega)
  have counter := readUint_slice (show 8 + 4 ≤ b.length by omega)
  rw [decodeBuffer, wallTime, counter]
  rfl

namespace KnowledgeVector

def writeEntriesAt : (b : Bytes) → (off : Nat) → List (GoString × HLC) → Option Bytes
  | b, _, [] => some b
  | b, off, (nodeID, clock) :: rest => do
      let b ← writeAt b off (bigEndian 2 nodeID.length)
      let off := off + 2
      let b ← writeAt b off nodeID
      let off := off + nodeID.length
      let b ← writeAt b off clock.encodeBinary
      writeEntriesAt b (off + 12) rest

def marshalBuffer {kv : KnowledgeVector} (sizing writing : Entries kv) : Option Bytes := do
  let size := sizing.order.foldl (fun size entry => size + (2 + entry.1.length + 12)) 2
  let b : Bytes := List.replicate size 0
  let b ← writeAt b 0 (bigEndian 2 kv.keys.card)
  writeEntriesAt b 2 writing.order

/-- The loop over the announced entries.  Entries decoded before an error stay in
the map. -/
def readEntriesAt (b : Bytes) : (count index off : Nat) → KnowledgeVector →
    Option (KnowledgeVector × Option DecodeError)
  | 0, _, _, kv => some (kv, none)
  | count + 1, index, off, kv => do
      if b.length < off + 2 then
        return (kv, some (.entry index))
      let idLen ← (slice b off (off + 2)).bind (readUint 2)
      let off := off + 2
      if b.length < off + idLen + 12 then
        return (kv, some (.entryData index))
      let nodeID ← slice b off (off + idLen)
      let off := off + idLen
      let clock ← (slice b off (off + 12)).bind HLC.decodeBuffer
      readEntriesAt b count (index + 1) (off + 12) (kv.insert nodeID clock)

def unmarshalBuffer (kv : KnowledgeVector) (b : Bytes) :
    Option (KnowledgeVector × Option DecodeError) := do
  if b.length < 2 then
    return (kv, some .tooShort)
  let count ← (slice b 0 2).bind (readUint 2)
  readEntriesAt b count 0 2 kv

/-! No access of the encoder is out of range, whatever the two orders are. -/

namespace Entries

variable {kv : KnowledgeVector}

theorem length_order (entries : Entries kv) : entries.order.length = kv.keys.card :=
  Iteration.length_order ⟨entries.order, entries.distinct, entries.complete⟩

theorem perm (first second : Entries kv) : first.order.Perm second.order := by
  apply (List.perm_ext_iff_of_nodup first.distinct.of_map second.distinct.of_map).mpr
  intro entry
  rw [first.complete entry.1 entry.2, second.complete entry.1 entry.2]

end Entries

theorem length_encodeEntry (entry : GoString × HLC) :
    (encodeEntry entry).length = 2 + entry.1.length + 12 := by
  rw [encodeEntry, List.length_append, List.length_append, length_bigEndian,
    HLC.length_encodeBinary]

theorem writeEntriesAt_fresh {entries : List (GoString × HLC)} {done : Bytes} {off room : Nat}
    (start : off = done.length) :
    writeEntriesAt (done ++ List.replicate ((entries.flatMap encodeEntry).length + room) 0) off
        entries =
      some (done ++ entries.flatMap encodeEntry ++ List.replicate room 0) := by
  induction entries generalizing done off with
  | nil => simp [writeEntriesAt]
  | cons entry rest ih =>
      obtain ⟨nodeID, clock⟩ := entry
      have header : (bigEndian 2 nodeID.length).length = 2 := length_bigEndian 2 _
      have clockSize := HLC.length_encodeBinary clock
      have split : (((nodeID, clock) :: rest).flatMap encodeEntry).length + room =
          2 + (nodeID.length + (12 + ((rest.flatMap encodeEntry).length + room))) := by
        rw [List.flatMap_cons, List.length_append, length_encodeEntry]
        dsimp only
        omega
      rw [split, writeEntriesAt, bind_writeAt start header]
      dsimp only
      rw [bind_writeAt (by rw [List.length_append, header, start]) rfl,
        bind_writeAt (by rw [List.length_append, List.length_append, header, start]) clockSize,
        ih (by simp only [List.length_append, header, clockSize, start])]
      simp [encodeEntry]

theorem foldl_size (entries : List (GoString × HLC)) (size : Nat) :
    entries.foldl (fun size entry => size + (2 + entry.1.length + 12)) size =
      size + (entries.flatMap encodeEntry).length := by
  induction entries generalizing size with
  | nil => rfl
  | cons entry rest ih =>
      rw [List.foldl_cons, ih, List.flatMap_cons, List.length_append, length_encodeEntry,
        Nat.add_assoc]

/-- The buffer is sized in one order and filled in another to the last byte. -/
theorem marshalBuffer_eq {kv : KnowledgeVector} (sizing writing : Entries kv) :
    marshalBuffer sizing writing = some (marshalBinary writing) := by
  have size : sizing.order.foldl (fun size entry => size + (2 + entry.1.length + 12)) 2 =
      2 + ((writing.order.flatMap encodeEntry).length + 0) := by
    rw [foldl_size, ((sizing.perm writing).flatMap_right encodeEntry).length_eq, Nat.add_zero]
  have filled := @writeEntriesAt_fresh writing.order (bigEndian 2 kv.keys.card) 2 0
    (length_bigEndian 2 _).symm
  rw [marshalBuffer, size, ← List.nil_append (List.replicate _ _)]
  refine (bind_writeAt (by rfl) (length_bigEndian 2 _)).trans ?_
  rw [List.nil_append, filled, List.replicate_zero, List.append_nil, marshalBinary,
    writing.length_order]

/-! The decoder never panics, and the entries that it takes are whole. -/

/-- One turn of the loop: an error that leaves the map as it is, or a whole entry. -/
theorem readEntriesAt_succ {b : Bytes} {off : Nat} (inside : off ≤ b.length)
    (count index : Nat) (kv : KnowledgeVector) :
    (∃ failure, readEntriesAt b (count + 1) index off kv = some (kv, some failure) ∧
      decodeEntries (count + 1) index kv (b.drop off) = .error failure) ∨
    ∃ entry rest, entry.1.length < 2 ^ 16 ∧ b.drop off = encodeEntry entry ++ rest ∧
      readEntriesAt b (count + 1) index off kv =
        readEntriesAt b count (index + 1) (off + (encodeEntry entry).length)
          (kv.insert entry.1 entry.2) := by
  have left : (b.drop off).length = b.length - off := List.length_drop
  by_cases short : b.length < off + 2
  · refine .inl ⟨.entry index, ?_, ?_⟩
    · rw [readEntriesAt, if_pos short]
      rfl
    · rw [decodeEntries, if_pos (by omega)]
  have announced := readUint_slice (Nat.le_of_not_lt short)
  have after : (b.drop (off + 2)).length = b.length - (off + 2) := List.length_drop
  have header : ((b.drop off).take 2).length = 2 := by
    rw [List.length_take]
    omega
  have small : fieldValue ((b.drop off).take 2) < 2 ^ 16 := by
    simpa [header] using fieldValue_lt ((b.drop off).take 2)
  have field := bigEndian_fieldValue header
  have cut (low count : Nat) : b.drop low = (b.drop low).take count ++ b.drop (low + count) := by
    rw [← List.drop_drop, List.take_append_drop]
  generalize idLenIs : fieldValue ((b.drop off).take 2) = idLen at announced small field
  by_cases missing : b.length < off + 2 + idLen + 12
  · refine .inl ⟨.entryData index, ?_, ?_⟩
    · rw [readEntriesAt, if_neg short, announced]
      dsimp only [pure_bind, Option.bind_eq_bind, Option.bind_some]
      rw [if_pos missing]
      rfl
    · rw [decodeEntries, if_neg (by omega)]
      dsimp only
      rw [idLenIs, List.drop_drop, if_pos (by omega)]
  · have enough : off + 2 + idLen + 12 ≤ b.length := Nat.le_of_not_lt missing
    have idSize : ((b.drop (off + 2)).take idLen).length = idLen := by
      rw [List.length_take]
      omega
    have clockSize : ((b.drop (off + 2 + idLen)).take 12).length = 12 := by
      rw [List.length_take, List.length_drop]
      omega
    -- The bytes that were read are the entry's encoding: any two bytes are a length
    -- and any twelve a clock.
    have whole : b.drop off = encodeEntry ((b.drop (off + 2)).take idLen,
        HLC.decodeBinary ((b.drop (off + 2 + idLen)).take 12)) ++
          b.drop (off + 2 + idLen + 12) := by
      rw [encodeEntry, HLC.encodeBinary_decodeBinary clockSize, idSize, field,
        List.append_assoc, List.append_assoc, ← cut, ← cut]
      exact cut off 2
    refine .inr ⟨_, _, idSize.trans_lt small, whole, ?_⟩
    rw [readEntriesAt, if_neg short, announced]
    dsimp only [pure_bind, Option.bind_eq_bind, Option.bind_some]
    rw [if_neg missing, slice_add (by omega), slice_add enough]
    dsimp only [pure_bind, Option.bind_eq_bind, Option.bind_some]
    rw [HLC.decodeBuffer_eq clockSize.ge, length_encodeEntry, idSize]
    simp only [Option.bind_some, Nat.add_assoc]

/-- A run of the loop takes whole entries, all that are announced unless it
reports an error; the rest of the input is as the reader of fields sees it. -/
theorem readEntriesAt_run {b : Bytes} {off : Nat} (inside : off ≤ b.length)
    (count index : Nat) (kv : KnowledgeVector) :
    ∃ entries rest failure, b.drop off = entries.flatMap encodeEntry ++ rest ∧
      (∀ entry ∈ entries, entry.1.length < 2 ^ 16) ∧
      (failure = none ↔ entries.length = count) ∧
      readEntriesAt b count index off kv = some (kv.insertAll entries, failure) ∧
      decodeEntries count index kv (b.drop off) =
        failure.elim (.ok (kv.insertAll entries)) .error := by
  induction count generalizing off index kv with
  | zero => exact ⟨[], b.drop off, none, rfl, by simp, by simp, rfl, rfl⟩
  | succ count ih =>
      rcases readEntriesAt_succ inside count index kv with
        ⟨failure, buffer, plain⟩ | ⟨entry, rest, small, whole, turn⟩
      · exact ⟨[], b.drop off, some failure, rfl, by simp, by simp, buffer, plain⟩
      · have left : (b.drop off).length = b.length - off := List.length_drop
        have next : b.drop (off + (encodeEntry entry).length) = rest := by
          rw [← List.drop_drop, whole, List.drop_left]
        have inside' : off + (encodeEntry entry).length ≤ b.length := by
          rw [whole, List.length_append] at left
          omega
        obtain ⟨entries, trailing, failure, split, fits, all, buffer, plain⟩ :=
          ih inside' (index + 1) (kv.insert entry.1 entry.2)
        rw [next] at split plain
        refine ⟨entry :: entries, trailing, failure, ?_, ?_, ?_, ?_, ?_⟩
        · rw [whole, split, List.flatMap_cons, List.append_assoc]
        · intro other member
          cases member with
          | head => exact small
          | tail _ member => exact fits other member
        · rw [all, List.length_cons, Nat.add_right_cancel_iff]
        · rw [turn, buffer]
          rfl
        · rw [whole, decodeEntries_encode small, plain]
          rfl

theorem unmarshalBuffer_run (kv : KnowledgeVector) {b : Bytes} (long : 2 ≤ b.length) :
    ∃ entries rest failure, b.drop 2 = entries.flatMap encodeEntry ++ rest ∧
      (∀ entry ∈ entries, entry.1.length < 2 ^ 16) ∧
      (failure = none ↔ entries.length = fieldValue (b.take 2)) ∧
      unmarshalBuffer kv b = some (kv.insertAll entries, failure) ∧
      decodeEntries (fieldValue (b.take 2)) 0 kv (b.drop 2) =
        failure.elim (.ok (kv.insertAll entries)) .error := by
  have announced := readUint_slice (show 0 + 2 ≤ b.length from long)
  have start : unmarshalBuffer kv b = readEntriesAt b (fieldValue (b.take 2)) 0 2 kv := by
    rw [unmarshalBuffer, if_neg (Nat.not_lt.mpr long), announced]
    rfl
  rw [start]
  exact readEntriesAt_run long _ 0 kv

/-- Into an empty map, the decoder on a buffer agrees with the reader of fields. -/
theorem unmarshalBuffer_empty (b : Bytes) :
    (unmarshalBuffer ∅ b).map (fun (kv, failure) => failure.elim (.ok kv) .error) =
      some (unmarshalBinary b) := by
  by_cases short : b.length < 2
  · rw [unmarshalBuffer, unmarshalBinary, if_pos short, if_pos short]
    rfl
  · obtain ⟨entries, rest, failure, -, -, -, buffer, plain⟩ :=
      unmarshalBuffer_run ∅ (Nat.le_of_not_lt short)
    rw [buffer, unmarshalBinary, if_neg short, plain]
    rfl

theorem unmarshalBuffer_of_ok {b : Bytes} {kv : KnowledgeVector}
    (accepted : unmarshalBinary b = .ok kv) : unmarshalBuffer ∅ b = some (kv, none) := by
  have agree := unmarshalBuffer_empty b
  rw [accepted, Option.map_eq_some_iff] at agree
  obtain ⟨⟨decoded, failure⟩, buffer, outcome⟩ := agree
  cases failure with
  | none =>
      cases outcome
      exact buffer
  | some failure => cases outcome

/-- Every vector within the limits of the format crosses it unchanged, whatever the
orders of the two visits; every input is decoded without a panic, to an error or
to exactly the announced entries. -/
theorem vector_format :
    (∀ (kv : KnowledgeVector) (sizing writing : Entries kv), kv.keys.card ≤ 65535 →
      (∀ nodeID ∈ kv, nodeID.length ≤ 65535) →
      ∃ encoded, marshalBuffer sizing writing = some encoded ∧
        unmarshalBuffer ∅ encoded = some (kv, none)) ∧
    ∀ (kv : KnowledgeVector) (b : Bytes), ∃ result failure,
      unmarshalBuffer kv b = some (result, failure) ∧
      (failure = none → ∃ entries trailing,
        entries.length ≤ 65535 ∧ (∀ entry ∈ entries, entry.1.length ≤ 65535) ∧
        b = bigEndian 2 entries.length ++ entries.flatMap encodeEntry ++ trailing ∧
        result = kv.insertAll entries) := by
  constructor
  · intro kv sizing writing few small
    have fits : ∀ entry ∈ writing.order, entry.1.length < 2 ^ 16 := by
      intro entry member
      have found := (writing.complete entry.1 entry.2).mp member
      exact Nat.lt_succ_of_le (small entry.1 (Finmap.mem_of_lookup_eq_some found))
    have count : writing.order.length < 2 ^ 16 := by
      rw [writing.length_order]
      exact Nat.lt_succ_of_le few
    exact ⟨marshalBinary writing, marshalBuffer_eq sizing writing,
      unmarshalBuffer_of_ok (unmarshalBinary_of_few writing fits count)⟩
  · intro kv b
    by_cases short : b.length < 2
    · refine ⟨kv, some .tooShort, ?_, ?_⟩
      · rw [unmarshalBuffer, if_pos short]
        rfl
      · intro done
        cases done
    · have header : (b.take 2).length = 2 := by
        rw [List.length_take]
        omega
      obtain ⟨entries, rest, failure, split, fits, all, buffer, -⟩ :=
        unmarshalBuffer_run kv (Nat.le_of_not_lt short)
      refine ⟨_, failure, buffer, ?_⟩
      intro done
      have announced := all.mp done
      have few : fieldValue (b.take 2) < 2 ^ 16 := by
        simpa [header] using fieldValue_lt (b.take 2)
      refine ⟨entries, rest, by omega, ?_, ?_, rfl⟩
      · intro entry member
        exact Nat.le_of_lt_succ (fits entry member)
      · rw [announced, bigEndian_fieldValue header, List.append_assoc, ← split,
          List.take_append_drop]

/-- Two nodes, one of them with the empty name and a clock before the epoch. -/
def twoNodes : KnowledgeVector :=
  (Finmap.insert [] ⟨-1, -1⟩ ∅ : KnowledgeVector).insert (ascii ['a']) ⟨1, 2⟩

theorem lookup_twoNodes {nodeID : GoString} {clock : HLC} :
    twoNodes.lookup nodeID = some clock ↔
      (nodeID, clock) = (ascii ['a'], ⟨1, 2⟩) ∨ (nodeID, clock) = ([], ⟨-1, -1⟩) := by
  rw [twoNodes, Prod.mk.injEq, Prod.mk.injEq]
  by_cases name : nodeID = ascii ['a']
  · have present : nodeID ≠ [] := by
      rw [name]
      decide
    rw [name, Finmap.lookup_insert, Option.some.injEq, eq_comm]
    simp [← name, present]
  · rw [Finmap.lookup_insert_of_ne _ name]
    by_cases empty : nodeID = []
    · rw [empty, Finmap.lookup_insert, Option.some.injEq, eq_comm]
      simp [← empty, name]
    · rw [Finmap.lookup_insert_of_ne _ empty]
      simp [name, empty]

def named : Entries twoNodes where
  order := [(ascii ['a'], ⟨1, 2⟩), ([], ⟨-1, -1⟩)]
  distinct := by decide
  complete := by
    intro nodeID clock
    rw [lookup_twoNodes, List.mem_cons, List.mem_singleton]

def unnamed : Entries twoNodes where
  order := [([], ⟨-1, -1⟩), (ascii ['a'], ⟨1, 2⟩)]
  distinct := by decide
  complete := by
    intro nodeID clock
    rw [lookup_twoNodes, List.mem_cons, List.mem_singleton, or_comm]

theorem vector_format_two_nodes : ∃ encoded,
    marshalBuffer named unnamed = some encoded ∧
      unmarshalBuffer ∅ encoded = some (twoNodes, none) :=
  vector_format.1 twoNodes named unnamed (by decide) (by decide)

end KnowledgeVector

end NellDB
