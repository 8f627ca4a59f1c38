import NellDB.Clock

namespace NellDB

open Data

/-- Go strings are byte strings; equality and order are bytewise. -/
abbrev GoString := Bytes

def defaultCollection : GoString := ascii ['d', 'e', 'f', 'a', 'u', 'l', 't']

def typeText : GoString := ascii ['t', 'e', 'x', 't']

/-- The stored document.  Vector entries are the bit patterns of the 32-bit
floats; a nil slice and an empty slice are the same list. -/
structure Record where
  collection : GoString
  id : GoString
  type : GoString
  payload : Bytes
  vector : List UInt32
  clock : HLC
  updatedBy : GoString
  deleted : Bool
  deriving DecidableEq, Repr

namespace Record

def zero : Record := ⟨[], [], [], [], [], HLC.zero, [], false⟩

def floatBytes (vector : List UInt32) : Bytes :=
  vector.flatMap fun bits => bigEndian 4 bits.toNat

def marshalBinary (r : Record) : Bytes :=
  [1] ++ [if r.deleted then 1 else 0] ++ r.clock.encodeBinary ++
    (bigEndian 2 r.collection.length ++ r.collection) ++
    (bigEndian 2 r.id.length ++ r.id) ++
    (bigEndian 2 r.type.length ++ r.type) ++
    (bigEndian 2 r.updatedBy.length ++ r.updatedBy) ++
    (bigEndian 4 r.vector.length ++ floatBytes r.vector) ++
    (bigEndian 4 r.payload.length ++ r.payload)

inductive DecodeError where
  | tooShort
  | collectionLen
  | collectionString
  | idLen
  | idString
  | typeLen
  | typeString
  | updatedByLen
  | updatedByString
  | vectorCount
  | vectorData
  | payloadLen
  | payloadData
  deriving DecidableEq, Repr

def DecodeError.message : DecodeError → String
  | .tooShort => "nell: binary record too short"
  | .collectionLen => "nell: truncated collection len"
  | .collectionString => "nell: truncated collection string"
  | .idLen => "nell: truncated id len"
  | .idString => "nell: truncated id string"
  | .typeLen => "nell: truncated type len"
  | .typeString => "nell: truncated type string"
  | .updatedByLen => "nell: truncated updatedBy len"
  | .updatedByString => "nell: truncated updatedBy string"
  | .vectorCount => "nell: truncated vector count"
  | .vectorData => "nell: truncated vector data"
  | .payloadLen => "nell: truncated payload len"
  | .payloadData => "nell: truncated payload data"

def readField (count : Nat) (failure : DecodeError) (rest : Bytes) :
    Except DecodeError (Bytes × Bytes) :=
  if rest.length < count then
    .error failure
  else
    .ok (rest.take count, rest.drop count)

/-- A length field of `width` bytes followed by that many items of `scale`
bytes each. -/
def readSized (width scale : Nat) (lenFailure dataFailure : DecodeError)
    (rest : Bytes) : Except DecodeError (Bytes × Bytes) := do
  let (size, rest) ← readField width lenFailure rest
  readField (fieldValue size * scale) dataFailure rest

def floatBits : Bytes → List UInt32
  | a :: b :: c :: d :: rest =>
      UInt32.ofNat (fieldValue [a, b, c, d]) :: floatBits rest
  | _ => []

def unmarshalBinary (b : Bytes) : Except DecodeError Record := do
  if b.length < 14 then
    throw .tooShort
  let (collection, rest) ←
    readSized 2 1 .collectionLen .collectionString (b.drop 14)
  let (id, rest) ← readSized 2 1 .idLen .idString rest
  let (type, rest) ← readSized 2 1 .typeLen .typeString rest
  let (updatedBy, rest) ← readSized 2 1 .updatedByLen .updatedByString rest
  let (vector, rest) ← readSized 4 4 .vectorCount .vectorData rest
  let (payload, _) ← readSized 4 1 .payloadLen .payloadData rest
  return {
    collection, id, type, payload, updatedBy
    vector := floatBits vector
    clock := HLC.decodeBinary ((b.drop 2).take 12)
    deleted := b[1]? = some 1 }

structure FitsBinary (r : Record) : Prop where
  collection : r.collection.length < 2 ^ 16
  id : r.id.length < 2 ^ 16
  type : r.type.length < 2 ^ 16
  updatedBy : r.updatedBy.length < 2 ^ 16
  vector : r.vector.length < 2 ^ 32
  payload : r.payload.length < 2 ^ 32

instance (r : Record) : Decidable r.FitsBinary :=
  decidable_of_iff
    (r.collection.length < 2 ^ 16 ∧ r.id.length < 2 ^ 16 ∧
      r.type.length < 2 ^ 16 ∧ r.updatedBy.length < 2 ^ 16 ∧
      r.vector.length < 2 ^ 32 ∧ r.payload.length < 2 ^ 32)
    ⟨fun ⟨collection, id, type, updatedBy, vector, payload⟩ =>
        ⟨collection, id, type, updatedBy, vector, payload⟩,
      fun ⟨collection, id, type, updatedBy, vector, payload⟩ =>
        ⟨collection, id, type, updatedBy, vector, payload⟩⟩

theorem readField_append {field : Bytes} {count : Nat}
    (sized : field.length = count) (failure : DecodeError) (rest : Bytes) :
    readField count failure (field ++ rest) = .ok (field, rest) := by
  subst count
  simp [readField]

/-- A sized field whose length field kept the true length is read back. -/
theorem readSized_append {width scale count : Nat} {data : Bytes}
    (fits : count < 256 ^ width) (sized : data.length = count * scale)
    (lenFailure dataFailure : DecodeError) (rest : Bytes) :
    readSized width scale lenFailure dataFailure
        (bigEndian width count ++ data ++ rest) = .ok (data, rest) := by
  have size := readField_append (length_bigEndian width count) lenFailure
    (data ++ rest)
  have body := readField_append sized dataFailure rest
  rw [List.append_assoc]
  simp only [readSized, size, bind, Except.bind, fieldValue_bigEndian fits, body]

theorem length_floatBytes (vector : List UInt32) :
    (floatBytes vector).length = vector.length * 4 := by
  induction vector with
  | nil => rfl
  | cons bits rest ih =>
      simp only [floatBytes, List.flatMap_cons, List.length_append,
        length_bigEndian, List.length_cons] at ih ⊢
      omega

theorem length_marshalBinary (r : Record) :
    r.marshalBinary.length = 30 + r.collection.length + r.id.length + r.type.length +
      r.updatedBy.length + 4 * r.vector.length + r.payload.length := by
  simp only [marshalBinary, List.length_append, length_bigEndian, length_floatBytes,
    HLC.length_encodeBinary, List.length_singleton]
  omega

theorem floatBits_append {field : Bytes} (sized : field.length = 4) (rest : Bytes) :
    floatBits (field ++ rest) = UInt32.ofNat (fieldValue field) :: floatBits rest := by
  match field, sized with
  | [a, b, c, d], _ => rfl

theorem floatBits_floatBytes (vector : List UInt32) :
    floatBits (floatBytes vector) = vector := by
  induction vector with
  | nil => rfl
  | cons bits rest ih =>
      have fits : bits.toNat < 256 ^ 4 := bits.toNat_lt
      rw [floatBytes, List.flatMap_cons, floatBits_append (length_bigEndian 4 bits.toNat),
        fieldValue_bigEndian fits, UInt32.ofNat_toNat, ← floatBytes, ih]

def sizedFields (r : Record) (trailing : Bytes) : Bytes :=
  bigEndian 2 r.collection.length ++ r.collection ++
    (bigEndian 2 r.id.length ++ r.id ++
      (bigEndian 2 r.type.length ++ r.type ++
        (bigEndian 2 r.updatedBy.length ++ r.updatedBy ++
          (bigEndian 4 r.vector.length ++ floatBytes r.vector ++
            (bigEndian 4 r.payload.length ++ r.payload ++ trailing)))))

theorem marshalBinary_append (r : Record) (trailing : Bytes) :
    r.marshalBinary ++ trailing =
      [1, if r.deleted then 1 else 0] ++ r.clock.encodeBinary ++
        r.sizedFields trailing := by
  simp [marshalBinary, sizedFields]

/-- The decoder does not look at the version, and a flag other than 1 is not a
deletion. -/
theorem unmarshalBinary_fields {r : Record} (fits : r.FitsBinary) {version flag : Byte}
    (deleted : r.deleted = decide (flag = 1)) (trailing : Bytes) :
    unmarshalBinary ([version, flag] ++ r.clock.encodeBinary ++ r.sizedFields trailing) =
      .ok r := by
  generalize header : [version, flag] ++ r.clock.encodeBinary = head
  have headLength : head.length = 14 := by
    rw [← header, List.length_append, HLC.length_encodeBinary]
    rfl
  have long : ¬ (head ++ r.sizedFields trailing).length < 14 := by
    rw [List.length_append]
    omega
  have body : (head ++ r.sizedFields trailing).drop 14 = r.sizedFields trailing := by
    rw [← headLength, List.drop_left]
  have clock : ((head ++ r.sizedFields trailing).drop 2).take 12 =
      r.clock.encodeBinary := by
    rw [← header]
    simp [← HLC.length_encodeBinary r.clock]
  have flagByte : (head ++ r.sizedFields trailing)[1]? = some flag := by
    rw [← header]
    rfl
  simp only [unmarshalBinary, long, body, clock, flagByte, if_false, bind, Except.bind,
    pure, Except.pure, HLC.decodeBinary_encodeBinary, Option.some.injEq, ← deleted]
  rw [sizedFields, readSized_append fits.collection (by omega)]
  simp only []
  rw [readSized_append fits.id (by omega)]
  simp only []
  rw [readSized_append fits.type (by omega)]
  simp only []
  rw [readSized_append fits.updatedBy (by omega)]
  simp only []
  rw [readSized_append fits.vector (length_floatBytes r.vector)]
  simp only []
  rw [readSized_append fits.payload (by omega)]
  simp only [floatBits_floatBytes]

theorem unmarshalBinary_marshalBinary {r : Record} (fits : r.FitsBinary)
    (trailing : Bytes) :
    unmarshalBinary (r.marshalBinary ++ trailing) = .ok r := by
  rw [marshalBinary_append]
  apply unmarshalBinary_fields fits
  cases r.deleted <;> rfl

end Record

end NellDB
