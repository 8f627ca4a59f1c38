import NellDB.Data.Slice
import NellDB.Record

namespace NellDB

open Data

namespace Record

/-! The codec as it works on a buffer: one offset that every field advances. -/

/-- A length field of `width` bytes, and the check that the buffer holds that
many items of `scale` bytes after it. -/
def readSizeAt (width scale : Nat) (lenFailure dataFailure : DecodeError) (b : Bytes)
    (off : Nat) : Checked DecodeError (Nat × Nat) := do
  if b.length < off + width then
    throw lenFailure
  let size ← .access (uintAt width b off)
  let off := off + width
  if b.length < off + size * scale then
    throw dataFailure
  return (size, off)

def readFloatsAt (b : Bytes) : (count off : Nat) → Option (List UInt32)
  | 0, _ => some []
  | count + 1, off => do
      let bits ← uintAt 4 b off
      let rest ← readFloatsAt b count (off + 4)
      return UInt32.ofNat bits :: rest

def unmarshalBuffer (b : Bytes) : Checked DecodeError Record := do
  if b.length < 14 then
    throw .tooShort
  let flag : Byte ← .access b[1]?
  let clock ← .access (slice b 2 14)
  let wallTime ← .access ((slice clock 0 8).bind (readUint 8))
  let counter ← .access ((slice clock 8 12).bind (readUint 4))
  let (cL, off) ← readSizeAt 2 1 .collectionLen .collectionString b 14
  let collection ← .access (slice b off (off + cL))
  let (iL, off) ← readSizeAt 2 1 .idLen .idString b (off + cL)
  let id ← .access (slice b off (off + iL))
  let (tL, off) ← readSizeAt 2 1 .typeLen .typeString b (off + iL)
  let type ← .access (slice b off (off + tL))
  let (uL, off) ← readSizeAt 2 1 .updatedByLen .updatedByString b (off + tL)
  let updatedBy ← .access (slice b off (off + uL))
  let (vC, off) ← readSizeAt 4 4 .vectorCount .vectorData b (off + uL)
  let vector ← .access (readFloatsAt b vC off)
  let (pL, off) ← readSizeAt 4 1 .payloadLen .payloadData b (off + vC * 4)
  let payload ← .access (slice b off (off + pL))
  return {
    collection, id, type, payload, vector, updatedBy
    clock := ⟨(UInt64.ofNat wallTime).toInt64, (UInt32.ofNat counter).toInt32⟩
    deleted := decide (flag = 1) }

def writeSizedAt (width : Nat) (b : Bytes) (off : Nat) (data : Bytes) :
    Option (Bytes × Nat) := do
  let b ← writeAt b off (bigEndian width data.length)
  let off := off + width
  let b ← copyAt b off data
  return (b, off + data.length)

def writeFloatsAt : (b : Bytes) → (off : Nat) → List UInt32 → Option Bytes
  | b, _, [] => some b
  | b, off, bits :: rest => do
      let b ← writeAt b off (bigEndian 4 bits.toNat)
      writeFloatsAt b (off + 4) rest

def marshalBuffer (r : Record) : Option Bytes := do
  let size := 1 + 1 + 12 + 2 + r.collection.length + 2 + r.id.length + 2 + r.type.length +
    2 + r.updatedBy.length + 4 + r.vector.length * 4 + 4 + r.payload.length
  let b : Bytes := List.replicate size 0
  let b ← writeAt b 0 [1]
  let b ← writeAt b 1 [if r.deleted then 1 else 0]
  let b ← writeAt b 2 r.clock.encodeBinary
  let (b, off) ← writeSizedAt 2 b 14 r.collection
  let (b, off) ← writeSizedAt 2 b off r.id
  let (b, off) ← writeSizedAt 2 b off r.type
  let (b, off) ← writeSizedAt 2 b off r.updatedBy
  let b ← writeAt b off (bigEndian 4 r.vector.length)
  let off := off + 4
  let b ← writeFloatsAt b off r.vector
  let off := off + r.vector.length * 4
  let (b, _) ← writeSizedAt 4 b off r.payload
  return b

/-! No access of the encoder is out of range, and the buffer it fills is the
concatenation of the fields. -/

theorem bind_writeSizedAt {α : Type} {width off room : Nat} {done data : Bytes}
    {next : Bytes × Nat → Option α} (start : off = done.length) :
    writeSizedAt width (done ++ List.replicate (width + (data.length + room)) 0) off data >>=
        next =
      next (done ++ (bigEndian width data.length ++ data) ++ List.replicate room 0,
        (done ++ (bigEndian width data.length ++ data)).length) := by
  have sized : (bigEndian width data.length).length = width := length_bigEndian _ _
  have after : off + width = (done ++ bigEndian width data.length).length := by
    rw [List.length_append, sized, start]
  simp only [writeSizedAt, writeAt_fresh start sized, copyAt_fresh after, Option.bind_eq_bind,
    Option.bind_some, Option.pure_def]
  simp only [after, ← List.append_assoc, List.length_append]

theorem writeFloatsAt_fresh {done : Bytes} {off room : Nat} {vector : List UInt32}
    (start : off = done.length) :
    writeFloatsAt (done ++ List.replicate (vector.length * 4 + room) 0) off vector =
      some (done ++ floatBytes vector ++ List.replicate room 0) := by
  induction vector generalizing done off with
  | nil => simp [writeFloatsAt, floatBytes]
  | cons bits rest ih =>
      have sized : (bigEndian 4 bits.toNat).length = 4 := length_bigEndian _ _
      have after : off + 4 = (done ++ bigEndian 4 bits.toNat).length := by
        rw [List.length_append, sized, start]
      have split : (bits :: rest).length * 4 + room = 4 + (rest.length * 4 + room) := by
        rw [List.length_cons]
        omega
      rw [split, writeFloatsAt, bind_writeAt start sized, ih after]
      simp [floatBytes]

theorem marshalBuffer_eq (r : Record) : r.marshalBuffer = some r.marshalBinary := by
  have size : 1 + 1 + 12 + 2 + r.collection.length + 2 + r.id.length + 2 + r.type.length +
        2 + r.updatedBy.length + 4 + r.vector.length * 4 + 4 + r.payload.length =
      1 + (1 + (12 + (2 + (r.collection.length + (2 + (r.id.length + (2 + (r.type.length +
        (2 + (r.updatedBy.length + (4 + (r.vector.length * 4 +
          (4 + (r.payload.length + 0)))))))))))))) := by
    omega
  have clock := HLC.length_encodeBinary r.clock
  rw [marshalBuffer, size, ← List.nil_append (List.replicate _ _)]
  refine (bind_writeAt (by rfl) (by rfl)).trans ?_
  refine (bind_writeAt (by rfl) (by rfl)).trans ?_
  refine (bind_writeAt (by rfl) clock).trans ?_
  refine (bind_writeSizedAt (by simp [clock])).trans ?_
  refine (bind_writeSizedAt rfl).trans ?_
  refine (bind_writeSizedAt rfl).trans ?_
  refine (bind_writeSizedAt rfl).trans ?_
  refine (bind_writeAt rfl (length_bigEndian 4 _)).trans ?_
  dsimp only
  rw [writeFloatsAt_fresh (by simp only [List.length_append, length_bigEndian]),
    Option.bind_eq_bind, Option.bind_some]
  refine (bind_writeSizedAt
    (by simp only [List.length_append, length_bigEndian, length_floatBytes])).trans ?_
  simp [marshalBinary]

/-! The decoder on a buffer never panics; it agrees with the reader of fields. -/

theorem readSizeAt_cases {width scale off : Nat} {lenFailure dataFailure : DecodeError}
    {b : Bytes} (inside : off ≤ b.length) :
    (∃ failure,
      readSizeAt width scale lenFailure dataFailure b off = some (.error failure) ∧
        readSized width scale lenFailure dataFailure (b.drop off) = .error failure) ∨
    ∃ size, off + width + size * scale ≤ b.length ∧
      readSizeAt width scale lenFailure dataFailure b off = some (.ok (size, off + width)) ∧
      readSized width scale lenFailure dataFailure (b.drop off) =
        .ok ((b.drop (off + width)).take (size * scale),
          b.drop (off + width + size * scale)) := by
  have rest : (b.drop off).length = b.length - off := List.length_drop
  by_cases short : b.length < off + width
  · have field : readField width lenFailure (b.drop off) = .error lenFailure :=
      if_pos (by omega)
    refine .inl ⟨lenFailure, ?_, ?_⟩
    · rw [readSizeAt, if_pos short]
      rfl
    · rw [readSized, field]
      rfl
  · have field : readField width lenFailure (b.drop off) =
        .ok ((b.drop off).take width, b.drop (off + width)) := by
      rw [readField, if_neg (by omega), List.drop_drop]
    have read := uintAt_eq (Nat.le_of_not_lt short)
    generalize (b.drop off).take width = size at field read
    have buffer : readSizeAt width scale lenFailure dataFailure b off =
        if b.length < off + width + fieldValue size * scale then some (.error dataFailure)
        else some (.ok (fieldValue size, off + width)) := by
      rw [readSizeAt, if_neg short]
      dsimp only [pure_bind]
      rw [Checked.bind_access read]
      split <;> rfl
    have plain : readSized width scale lenFailure dataFailure (b.drop off) =
        readField (fieldValue size * scale) dataFailure (b.drop (off + width)) := by
      rw [readSized, field]
      rfl
    have left : (b.drop (off + width)).length = b.length - (off + width) := List.length_drop
    rw [buffer, plain, readField]
    by_cases missing : b.length < off + width + fieldValue size * scale
    · exact .inl ⟨dataFailure, if_pos missing, if_pos (by omega)⟩
    · refine .inr ⟨fieldValue size, Nat.le_of_not_lt missing, if_neg missing, ?_⟩
      rw [if_neg (by omega), List.drop_drop]

/-- A field is read at an offset as it is read from the rest of the input. -/
theorem bind_readSizeAt {α : Type} {width scale off : Nat}
    {lenFailure dataFailure : DecodeError} {b : Bytes}
    {next : Nat × Nat → Checked DecodeError α}
    {onward : Bytes × Bytes → Except DecodeError α} (inside : off ≤ b.length)
    (agree : ∀ size, off + width + size * scale ≤ b.length →
      next (size, off + width) = some (onward ((b.drop (off + width)).take (size * scale),
        b.drop (off + width + size * scale)))) :
    readSizeAt width scale lenFailure dataFailure b off >>= next =
      some (readSized width scale lenFailure dataFailure (b.drop off) >>= onward) := by
  rcases readSizeAt_cases inside with ⟨failure, buffer, plain⟩ | ⟨size, bound, buffer, plain⟩
  · rw [Checked.bind_error buffer, plain]
    rfl
  · rw [Checked.bind_ok buffer, plain]
    exact agree size bound

theorem readFloatsAt_eq {b : Bytes} {count off : Nat} (inside : off + count * 4 ≤ b.length) :
    readFloatsAt b count off = some (floatBits ((b.drop off).take (count * 4))) := by
  induction count generalizing off with
  | zero => simp [readFloatsAt, floatBits]
  | succ count ih =>
      have first := uintAt_eq (show off + 4 ≤ b.length by omega)
      have onward := ih (show off + 4 + count * 4 ≤ b.length by omega)
      have sized : ((b.drop off).take 4).length = 4 := by
        rw [List.length_take, List.length_drop]
        omega
      rw [Nat.succ_mul, Nat.add_comm (count * 4) 4, List.take_add, List.drop_drop,
        floatBits_append sized]
      simp only [readFloatsAt, first, onward, Option.bind_eq_bind, Option.bind_some,
        Option.pure_def]

theorem unmarshalBuffer_eq (b : Bytes) : unmarshalBuffer b = some (unmarshalBinary b) := by
  by_cases short : b.length < 14
  · rw [unmarshalBuffer, unmarshalBinary, if_pos short, if_pos short]
    rfl
  have clock : slice b 2 14 = some ((b.drop 2).take 12) :=
    slice_add (show 2 + 12 ≤ b.length by omega)
  have clockLength : ((b.drop 2).take 12).length = 12 := by
    rw [List.length_take, List.length_drop]
    omega
  have wallTime := readUint_slice (show 0 + 8 ≤ ((b.drop 2).take 12).length by omega)
  have counter := readUint_slice (show 8 + 4 ≤ ((b.drop 2).take 12).length by omega)
  obtain ⟨flag, present⟩ : ∃ flag, b[1]? = some flag :=
    ⟨_, List.getElem?_eq_getElem (by omega)⟩
  rw [unmarshalBuffer, unmarshalBinary, if_neg short, if_neg short]
  dsimp only [pure_bind]
  rw [Checked.bind_access present, Checked.bind_access clock, Checked.bind_access wallTime,
    Checked.bind_access counter]
  refine bind_readSizeAt (Nat.le_of_not_lt short) fun cL inside => ?_
  simp only [Nat.mul_one] at inside ⊢
  rw [Checked.bind_access (slice_add inside)]
  refine bind_readSizeAt inside fun iL inside => ?_
  simp only [Nat.mul_one] at inside ⊢
  rw [Checked.bind_access (slice_add inside)]
  refine bind_readSizeAt inside fun tL inside => ?_
  simp only [Nat.mul_one] at inside ⊢
  rw [Checked.bind_access (slice_add inside)]
  refine bind_readSizeAt inside fun uL inside => ?_
  simp only [Nat.mul_one] at inside ⊢
  rw [Checked.bind_access (slice_add inside)]
  refine bind_readSizeAt inside fun vC inside => ?_
  rw [Checked.bind_access (readFloatsAt_eq inside)]
  refine bind_readSizeAt inside fun pL inside => ?_
  simp only [Nat.mul_one] at inside ⊢
  rw [Checked.bind_access (slice_add inside)]
  simp only [present, Option.some.injEq]
  rfl

/-! What the decoder accepts starts with the encoding of what it returns, up to
the two bytes of the version and the deletion flag. -/

theorem readField_eq_ok {count : Nat} {failure : DecodeError} {rest field left : Bytes}
    (read : readField count failure rest = .ok (field, left)) :
    rest = field ++ left ∧ field.length = count := by
  by_cases short : rest.length < count
  · rw [readField, if_pos short] at read
    cases read
  · rw [readField, if_neg short] at read
    obtain ⟨rfl, rfl⟩ := Prod.mk.inj (Except.ok.inj read)
    refine ⟨(List.take_append_drop count rest).symm, ?_⟩
    rw [List.length_take]
    omega

theorem readSized_eq_ok {width scale : Nat} {lenFailure dataFailure : DecodeError}
    {rest data left : Bytes}
    (read : readSized width scale lenFailure dataFailure rest = .ok (data, left)) :
    ∃ count, count < 256 ^ width ∧ data.length = count * scale ∧
      rest = bigEndian width count ++ data ++ left := by
  obtain ⟨⟨size, onward⟩, sizeRead, dataRead⟩ := exists_ok_of_bind_eq_ok read
  obtain ⟨rfl, sized⟩ := readField_eq_ok sizeRead
  obtain ⟨rfl, length⟩ := readField_eq_ok dataRead
  refine ⟨fieldValue size, ?_, length, ?_⟩
  · rw [← sized]
    exact fieldValue_lt size
  · rw [bigEndian_fieldValue sized, List.append_assoc]

theorem floatBytes_floatBits {count : Nat} {data : Bytes} (sized : data.length = count * 4) :
    floatBytes (floatBits data) = data ∧ (floatBits data).length = count := by
  induction count generalizing data with
  | zero =>
      rw [List.length_eq_zero_iff.mp (by omega : data.length = 0)]
      exact ⟨rfl, rfl⟩
  | succ count ih =>
      have first : (data.take 4).length = 4 := by
        rw [List.length_take]
        omega
      have onward : (data.drop 4).length = count * 4 := by
        rw [List.length_drop]
        omega
      have fits : fieldValue (data.take 4) < 2 ^ 32 := by
        simpa [first] using fieldValue_lt (data.take 4)
      rw [← List.take_append_drop 4 data, floatBits_append first]
      refine ⟨?_, congrArg (· + 1) (ih onward).2⟩
      rw [floatBytes, List.flatMap_cons, ← floatBytes, (ih onward).1,
        UInt32.toNat_ofNat_of_lt' fits, bigEndian_fieldValue first]

theorem unmarshalBinary_eq_ok {b : Bytes} {r : Record} (accepted : unmarshalBinary b = .ok r) :
    r.FitsBinary ∧ ∃ version flag trailing,
      b = [version, flag] ++ r.clock.encodeBinary ++ r.sizedFields trailing ∧
        r.deleted = decide (flag = 1) := by
  by_cases short : b.length < 14
  · rw [unmarshalBinary, if_pos short] at accepted
    cases accepted
  rw [unmarshalBinary, if_neg short] at accepted
  obtain ⟨⟨collection, rest⟩, collectionRead, accepted⟩ := exists_ok_of_bind_eq_ok accepted
  obtain ⟨⟨id, rest⟩, idRead, accepted⟩ := exists_ok_of_bind_eq_ok accepted
  obtain ⟨⟨type, rest⟩, typeRead, accepted⟩ := exists_ok_of_bind_eq_ok accepted
  obtain ⟨⟨updatedBy, rest⟩, updatedByRead, accepted⟩ := exists_ok_of_bind_eq_ok accepted
  obtain ⟨⟨vector, rest⟩, vectorRead, accepted⟩ := exists_ok_of_bind_eq_ok accepted
  obtain ⟨⟨payload, trailing⟩, payloadRead, accepted⟩ := exists_ok_of_bind_eq_ok accepted
  obtain rfl := Except.ok.inj accepted
  obtain ⟨cL, collectionFits, collectionSized, body⟩ := readSized_eq_ok collectionRead
  obtain ⟨iL, idFits, idSized, rfl⟩ := readSized_eq_ok idRead
  obtain ⟨tL, typeFits, typeSized, rfl⟩ := readSized_eq_ok typeRead
  obtain ⟨uL, updatedByFits, updatedBySized, rfl⟩ := readSized_eq_ok updatedByRead
  obtain ⟨vC, vectorFits, vectorSized, rfl⟩ := readSized_eq_ok vectorRead
  obtain ⟨pL, payloadFits, payloadSized, rfl⟩ := readSized_eq_ok payloadRead
  obtain ⟨floats, vectorLength⟩ := floatBytes_floatBits vectorSized
  simp only [Nat.mul_one] at collectionSized idSized typeSized updatedBySized payloadSized
  subst collectionSized idSized typeSized updatedBySized payloadSized vectorLength
  have clockSized : ((b.drop 2).take 12).length = 12 := by
    rw [List.length_take, List.length_drop]
    omega
  refine ⟨⟨collectionFits, idFits, typeFits, updatedByFits, vectorFits, payloadFits⟩, ?_⟩
  cases b with
  | nil => simp at short
  | cons version rest =>
      cases rest with
      | nil => simp at short
      | cons flag rest =>
          refine ⟨version, flag, trailing, ?_, by simp⟩
          rw [HLC.encodeBinary_decodeBinary clockSized, sizedFields, floats, ← body]
          exact congrArg (version :: flag :: ·) (List.take_append_drop 12 rest).symm

theorem sizedFields_append (r : Record) (trailing more : Bytes) :
    r.sizedFields trailing ++ more = r.sizedFields (trailing ++ more) := by
  simp [sizedFields]

theorem unmarshalBinary_append {b : Bytes} {r : Record} (accepted : unmarshalBinary b = .ok r)
    (more : Bytes) : unmarshalBinary (b ++ more) = .ok r := by
  obtain ⟨fits, version, flag, trailing, rfl, deleted⟩ := unmarshalBinary_eq_ok accepted
  rw [List.append_assoc, sizedFields_append]
  exact unmarshalBinary_fields fits deleted _

theorem length_marshalBinary_le {b : Bytes} {r : Record}
    (accepted : unmarshalBinary b = .ok r) : r.marshalBinary.length ≤ b.length := by
  obtain ⟨fits, version, flag, trailing, rfl, deleted⟩ := unmarshalBinary_eq_ok accepted
  have whole := congrArg List.length (r.marshalBinary_append trailing)
  simp only [List.length_append, List.length_cons] at whole ⊢
  omega

/-- A strict beginning of an encoding is not accepted: it would decode to the
same record, whose encoding is longer. -/
theorem unmarshalBinary_cut {r : Record} (fits : r.FitsBinary) {start more : Bytes}
    (whole : start ++ more = r.marshalBinary) (proper : more ≠ []) :
    ∃ failure, unmarshalBinary start = .error failure := by
  match decoded : unmarshalBinary start with
  | .error failure => exact ⟨failure, rfl⟩
  | .ok other =>
      have same := unmarshalBinary_append decoded more
      rw [whole, ← List.append_nil r.marshalBinary, unmarshalBinary_marshalBinary fits] at same
      have long := length_marshalBinary_le decoded
      have nonempty := List.length_pos_iff.mpr proper
      rw [← Except.ok.inj same, ← whole, List.length_append] at long
      omega

/-- The binary format: encoding and decoding return the record, no strict
beginning of an encoding is accepted, and no input at all makes the decoder
panic; an accepted one starts with the encoding of the record it gives, up to
the version and the deletion flag. -/
theorem binary_format :
    (∀ r : Record, r.FitsBinary → ∃ encoded, r.marshalBuffer = some encoded ∧
      unmarshalBuffer encoded = some (.ok r) ∧
      ∀ start, start <+: encoded → start ≠ encoded →
        ∃ failure, unmarshalBuffer start = some (.error failure)) ∧
    ∀ b : Bytes, ∃ result, unmarshalBuffer b = some result ∧
      ∀ r, result = .ok r → ∃ version flag fields trailing,
        b = [version, flag] ++ fields ++ trailing ∧
          r.marshalBuffer = some ([1, if flag = 1 then 1 else 0] ++ fields) := by
  refine ⟨fun r fits => ?_, fun b => ⟨_, unmarshalBuffer_eq b, fun r accepted => ?_⟩⟩
  · refine ⟨_, marshalBuffer_eq r, ?_, fun start shorter proper => ?_⟩
    · rw [unmarshalBuffer_eq, ← List.append_nil r.marshalBinary,
        unmarshalBinary_marshalBinary fits]
    · obtain ⟨more, whole⟩ := shorter
      have nonempty : more ≠ [] := by
        rintro rfl
        exact proper (by rw [← whole, List.append_nil])
      obtain ⟨failure, rejected⟩ := unmarshalBinary_cut fits whole nonempty
      exact ⟨failure, by rw [unmarshalBuffer_eq, rejected]⟩
  · obtain ⟨fits, version, flag, trailing, rfl, deleted⟩ := unmarshalBinary_eq_ok accepted
    refine ⟨version, flag, r.clock.encodeBinary ++ r.sizedFields [], trailing, ?_, ?_⟩
    · simp [sizedFields_append]
    · rw [marshalBuffer_eq, ← List.append_nil r.marshalBinary, marshalBinary_append, deleted]
      simp

/-- A deleted record whose clock is negative in both fields. -/
def beforeEpoch : Record :=
  { zero with id := ascii ['a'], vector := [1, 2], clock := ⟨-5, -1⟩, deleted := true }

theorem binary_format_before_epoch :
    beforeEpoch.FitsBinary ∧ ∃ encoded, beforeEpoch.marshalBuffer = some encoded ∧
      unmarshalBuffer encoded = some (.ok beforeEpoch) := by
  have fits : beforeEpoch.FitsBinary := by decide
  obtain ⟨encoded, marshalled, decoded, -⟩ := binary_format.1 beforeEpoch fits
  exact ⟨fits, encoded, marshalled, decoded⟩

end Record

end NellDB
