import NellDB.Store.Conflict

namespace NellDB

open Data

/-! The binary form of a knowledge vector. -/

namespace KnowledgeVector

/-- An order in which the entries of the map are visited. -/
structure Entries (kv : KnowledgeVector) where
  order : List (GoString × HLC)
  distinct : (order.map Prod.fst).Nodup
  complete : ∀ nodeID clock, (nodeID, clock) ∈ order ↔ kv.lookup nodeID = some clock

def noEntries : Entries ∅ where
  order := []
  distinct := List.nodup_nil
  complete := by simp

def encodeEntry (entry : GoString × HLC) : Bytes :=
  bigEndian 2 entry.1.length ++ entry.1 ++ entry.2.encodeBinary

def marshalBinary {kv : KnowledgeVector} (entries : Entries kv) : Bytes :=
  bigEndian 2 entries.order.length ++ entries.order.flatMap encodeEntry

inductive DecodeError where
  | tooShort
  | entry (index : Nat)
  | entryData (index : Nat)
  deriving DecidableEq, Repr

def DecodeError.message : DecodeError → String
  | .tooShort => "kv: binary too short"
  | .entry index => "kv: truncated at entry " ++ toString index
  | .entryData index => "kv: truncated at entry " ++ toString index ++ " data"

def decodeEntries : (count index : Nat) → KnowledgeVector → Bytes →
    Except DecodeError KnowledgeVector
  | 0, _, kv, _ => .ok kv
  | count + 1, index, kv, b =>
      if b.length < 2 then
        .error (.entry index)
      else
        let idLen := fieldValue (b.take 2)
        let rest := b.drop 2
        if rest.length < idLen + 12 then
          .error (.entryData index)
        else
          let clock := HLC.decodeBinary ((rest.drop idLen).take 12)
          decodeEntries count (index + 1) (kv.insert (rest.take idLen) clock)
            (rest.drop (idLen + 12))

def unmarshalBinary (b : Bytes) : Except DecodeError KnowledgeVector :=
  if b.length < 2 then
    .error .tooShort
  else
    decodeEntries (fieldValue (b.take 2)) 0 ∅ (b.drop 2)

def insertAll (kv : KnowledgeVector) (entries : List (GoString × HLC)) : KnowledgeVector :=
  entries.foldl (fun kv entry => kv.insert entry.1 entry.2) kv

theorem lookup_insertAll {kv : KnowledgeVector} {entries : List (GoString × HLC)}
    {nodeID : GoString} {clock : HLC}
    (found : (kv.insertAll entries).lookup nodeID = some clock) :
    kv.lookup nodeID = some clock ∨ (nodeID, clock) ∈ entries := by
  induction entries generalizing kv with
  | nil => exact .inl found
  | cons entry rest ih =>
      rcases ih found with before | later
      · rcases FiniteMap.lookup_insert_cases before with ⟨rfl, rfl⟩ | ⟨_, earlier⟩
        · exact .inr List.mem_cons_self
        · exact .inl earlier
      · exact .inr (List.mem_cons_of_mem entry later)

theorem mem_insertAll {kv : KnowledgeVector} {entries : List (GoString × HLC)}
    {nodeID : GoString} (present : nodeID ∈ kv ∨ ∃ clock, (nodeID, clock) ∈ entries) :
    nodeID ∈ kv.insertAll entries := by
  induction entries generalizing kv with
  | nil => simpa [insertAll] using present
  | cons entry rest ih =>
      apply ih
      rw [Finmap.mem_insert]
      rcases present with before | ⟨clock, member⟩
      · exact .inl (.inr before)
      · rcases List.mem_cons.mp member with rfl | later
        · exact .inl (.inl rfl)
        · exact .inr ⟨clock, later⟩

theorem insertAll_entries {kv : KnowledgeVector} (entries : Entries kv) :
    insertAll ∅ entries.order = kv := by
  have sound {nodeID : GoString} {clock : HLC}
      (found : (insertAll ∅ entries.order).lookup nodeID = some clock) :
      kv.lookup nodeID = some clock := by
    rcases lookup_insertAll found with empty | member
    · simp at empty
    · exact (entries.complete nodeID clock).mp member
  apply Finmap.ext_lookup
  intro nodeID
  cases found : kv.lookup nodeID with
  | none =>
      cases other : (insertAll ∅ entries.order).lookup nodeID with
      | none => rfl
      | some clock =>
          rw [sound other] at found
          contradiction
  | some clock =>
      have member := (entries.complete nodeID clock).mpr found
      obtain ⟨other, present⟩ := Option.isSome_iff_exists.mp
        (Finmap.lookup_isSome.mpr (@mem_insertAll ∅ _ _ (.inr ⟨clock, member⟩)))
      rw [present, ← sound present, found]

theorem decodeEntries_encode {entry : GoString × HLC} (fits : entry.1.length < 2 ^ 16)
    (count index : Nat) (kv : KnowledgeVector) (rest : Bytes) :
    decodeEntries (count + 1) index kv (encodeEntry entry ++ rest) =
      decodeEntries count (index + 1) (kv.insert entry.1 entry.2) rest := by
  have whole : encodeEntry entry ++ rest =
      bigEndian 2 entry.1.length ++ (entry.1 ++ (entry.2.encodeBinary ++ rest)) := by
    simp [encodeEntry]
  have header : (bigEndian 2 entry.1.length).length = 2 := length_bigEndian 2 _
  have value : fieldValue (bigEndian 2 entry.1.length) = entry.1.length :=
    fieldValue_bigEndian fits
  have clockSize := HLC.length_encodeBinary entry.2
  have long : ¬ (encodeEntry entry ++ rest).length < 2 := by
    rw [whole, List.length_append]
    omega
  have data : ¬ (entry.1 ++ (entry.2.encodeBinary ++ rest)).length <
      entry.1.length + 12 := by
    rw [List.length_append, List.length_append]
    omega
  have after : (entry.1 ++ (entry.2.encodeBinary ++ rest)).drop (entry.1.length + 12) =
      rest := by
    rw [← List.drop_drop, List.drop_left, List.drop_left' clockSize]
  rw [decodeEntries, if_neg long]
  simp only [whole, List.take_left' header, List.drop_left' header, value, data, if_false,
    List.take_left, List.drop_left, List.take_left' clockSize, after,
    HLC.decodeBinary_encodeBinary]

/-- As many entries are decoded as the two length bytes announce. -/
theorem decodeEntries_take {entries : List (GoString × HLC)}
    (fits : ∀ entry ∈ entries, entry.1.length < 2 ^ 16) {count : Nat}
    (announced : count ≤ entries.length) (index : Nat) (kv : KnowledgeVector) :
    decodeEntries count index kv (entries.flatMap encodeEntry) =
      .ok (kv.insertAll (entries.take count)) := by
  induction entries generalizing count index kv with
  | nil =>
      have none : count = 0 := Nat.le_zero.mp announced
      subst none
      rfl
  | cons entry rest ih =>
      cases count with
      | zero => rfl
      | succ count =>
          rw [List.flatMap_cons, decodeEntries_encode (fits entry List.mem_cons_self),
            ih (fun other member => fits other (List.mem_cons_of_mem entry member))
              (Nat.le_of_succ_le_succ announced)]
          rfl

theorem unmarshalBinary_marshalBinary {kv : KnowledgeVector} (entries : Entries kv)
    (fits : ∀ entry ∈ entries.order, entry.1.length < 2 ^ 16) :
    unmarshalBinary (marshalBinary entries) =
      .ok (insertAll ∅ (entries.order.take (entries.order.length % 2 ^ 16))) := by
  have header : (bigEndian 2 entries.order.length).length = 2 := length_bigEndian 2 _
  have long : ¬ (marshalBinary entries).length < 2 := by
    rw [marshalBinary, List.length_append]
    omega
  rw [unmarshalBinary, if_neg long, marshalBinary, List.take_left' header,
    List.drop_left' header, fieldValue_bigEndian_mod]
  exact decodeEntries_take fits (Nat.mod_le _ _) 0 ∅

/-- A vector of fewer than 2^16 entries crosses the wire as it is. -/
theorem unmarshalBinary_of_few {kv : KnowledgeVector} (entries : Entries kv)
    (fits : ∀ entry ∈ entries.order, entry.1.length < 2 ^ 16)
    (few : entries.order.length < 2 ^ 16) :
    unmarshalBinary (marshalBinary entries) = .ok kv := by
  rw [unmarshalBinary_marshalBinary entries fits, Nat.mod_eq_of_lt few, List.take_length,
    insertAll_entries]

/-- A vector that crossed the wire knows no more than the one that was sent. -/
theorem lookup_of_unmarshalBinary {kv decoded : KnowledgeVector} (entries : Entries kv)
    (fits : ∀ entry ∈ entries.order, entry.1.length < 2 ^ 16)
    (received : unmarshalBinary (marshalBinary entries) = .ok decoded)
    {nodeID : GoString} {clock : HLC} (found : decoded.lookup nodeID = some clock) :
    kv.lookup nodeID = some clock := by
  rw [unmarshalBinary_marshalBinary entries fits, Except.ok.injEq] at received
  subst decoded
  rcases lookup_insertAll found with empty | member
  · simp at empty
  · exact (entries.complete nodeID clock).mp (List.mem_of_mem_take member)

end KnowledgeVector

end NellDB
