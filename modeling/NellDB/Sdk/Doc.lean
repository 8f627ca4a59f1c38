import NellDB.Sdk.Rev
import NellDB.Store.Memory

namespace NellDB

open Data

/-- A value of a document.  Numbers are the bit patterns of 64-bit floats. -/
inductive Value where
  | null
  | bool (flag : Bool)
  | number (bits : UInt64)
  | string (text : GoString)
  | floats (entries : List UInt32)
  | bytes (content : Bytes)
  | array (items : List Value)
  | object (fields : List (GoString × Value))

abbrev Doc := FiniteMap GoString Value

def fieldID : GoString := ascii ['_', 'i', 'd']

def fieldRev : GoString := ascii ['_', 'r', 'e', 'v']

def fieldDeleted : GoString := ascii ['_', 'd', 'e', 'l', 'e', 't', 'e', 'd']

def fieldType : GoString := ascii ['_', 't', 'y', 'p', 'e']

def fieldVector : GoString := ascii ['_', 'v', 'e', 'c', 't', 'o', 'r']

def fieldPayload : GoString :=
  ascii ['_', 'p', 'a', 'y', 'l', 'o', 'a', 'd', '_', 'b', '6', '4']

def revImported : GoString := ascii ['1', '-', 'i', 'm', 'p', 'o', 'r', 't', 'e', 'd']

def revRemote : GoString := ascii ['1', '-', 'r', 'e', 'm', 'o', 't', 'e']

/-- The JSON library: documents, knowledge vectors and clocks.  A revision
field of valid text survives a round trip. -/
structure JsonCodec where
  marshal : Doc → Option Bytes
  unmarshal : Bytes → Option Doc
  marshalVector : KnowledgeVector → Bytes
  unmarshalVector : Bytes → Option KnowledgeVector
  marshalClock : HLC → Bytes
  unmarshalClock : Bytes → Option HLC
  unmarshal_nil : unmarshal [] = none
  unmarshal_marshal : ∀ {body rev text}, body.lookup fieldRev = some (.string rev) →
    Utf8.Valid rev → marshal body = some text →
    ∃ decoded, unmarshal text = some decoded ∧
      decoded.lookup fieldRev = some (.string rev)

/-! A codec for documents that hold nothing but a revision of plain characters,
which need no escapes. -/

namespace JsonCodec

def quoted (text : Bytes) : Bytes := [34] ++ text ++ [34]

def plain (text : Bytes) : Bool :=
  text.all fun byte => 32 ≤ byte.val && byte.val < 127 &&
    !([34, 38, 60, 62, 92].contains byte.val)

def openRev : Bytes := [123] ++ quoted fieldRev ++ [58, 34]

def closeRev : Bytes := [34, 125]

def marshalRev (body : Doc) : Option Bytes :=
  if body.keys = ∅ then
    some [123, 125]
  else
    match body.lookup fieldRev with
    | some (.string rev) =>
        if body.keys = {fieldRev} ∧ plain rev then
          some (openRev ++ rev ++ closeRev)
        else
          none
    | _ => none

def unmarshalRev (text : Bytes) : Option Doc :=
  if text = [123, 125] then
    some ∅
  else
    let inner := text.drop openRev.length
    let rev := inner.take (inner.length - closeRev.length)
    if text = openRev ++ rev ++ closeRev then
      some (Finmap.singleton fieldRev (.string rev))
    else
      none

def clockText (clock : HLC) : Bytes :=
  [123] ++ quoted (ascii ['w', 'a', 'l', 'l', '_', 't', 'i', 'm', 'e']) ++ [58] ++
    itoa clock.wallTime ++ [44] ++
    quoted (ascii ['c', 'o', 'u', 'n', 't', 'e', 'r']) ++ [58] ++
    itoa clock.counter.toInt64 ++ [125]

def vectorText (kv : KnowledgeVector) : Bytes :=
  let members := kv.sortedKeys.map fun nodeID =>
    quoted nodeID ++ [58] ++ clockText ((kv.lookup nodeID).getD HLC.zero)
  [123] ++ [44].intercalate members ++ [125]

theorem unmarshalRev_text (rev : GoString) :
    unmarshalRev (openRev ++ rev ++ closeRev) =
      some (Finmap.singleton fieldRev (.string rev)) := by
  have inner : (openRev ++ rev ++ closeRev).drop openRev.length = rev ++ closeRev := by
    rw [List.append_assoc]
    exact List.drop_left
  have long : openRev ++ rev ++ closeRev ≠ [123, 125] := by
    intro same
    have length := congrArg List.length same
    simp [openRev, closeRev, quoted, fieldRev, ascii] at length
  have size : (rev ++ closeRev).length - closeRev.length = rev.length := by simp
  unfold unmarshalRev
  rw [if_neg long]
  simp only [inner, size, List.take_left, if_true]

theorem marshalRev_eq {body : Doc} {rev : GoString} {text : Bytes}
    (carried : body.lookup fieldRev = some (.string rev))
    (marshalled : marshalRev body = some text) : text = openRev ++ rev ++ closeRev := by
  unfold marshalRev at marshalled
  split at marshalled
  next empty =>
      have member := Finmap.mem_keys.mpr (Finmap.mem_of_lookup_eq_some carried)
      simp [empty] at member
  next =>
      simp only [carried] at marshalled
      split at marshalled
      next => exact (Option.some.inj marshalled).symm
      next => contradiction

theorem unmarshalRev_marshalRev {body : Doc} {rev : GoString} {text : Bytes}
    (carried : body.lookup fieldRev = some (.string rev))
    (marshalled : marshalRev body = some text) :
    ∃ decoded, unmarshalRev text = some decoded ∧
      decoded.lookup fieldRev = some (.string rev) := by
  rw [marshalRev_eq carried marshalled]
  exact ⟨_, unmarshalRev_text rev, Finmap.lookup_singleton_eq⟩

def revOnly : JsonCodec where
  marshal := marshalRev
  unmarshal := unmarshalRev
  marshalVector := vectorText
  unmarshalVector _ := none
  marshalClock := clockText
  unmarshalClock _ := none
  unmarshal_nil := by decide
  unmarshal_marshal carried _ := unmarshalRev_marshalRev carried

/-! The same with an id, as in the documents of a changes feed. -/

def openID : Bytes := [123] ++ quoted fieldID ++ [58, 34]

def beforeRev : Bytes := [34, 44] ++ quoted fieldRev ++ [58, 34]

def marshalIDRev (body : Doc) : Option Bytes :=
  match body.lookup fieldID, body.lookup fieldRev with
  | some (.string id), some (.string rev) =>
      if body.keys = {fieldID, fieldRev} ∧ plain id ∧ plain rev then
        some (openID ++ id ++ beforeRev ++ rev ++ closeRev)
      else
        none
  | _, _ => marshalRev body

def unmarshalIDRev (text : Bytes) : Option Doc :=
  let inner := text.drop openID.length
  let id := inner.takeWhile (· ≠ 34)
  let rest := inner.drop (id.length + beforeRev.length)
  let rev := rest.take (rest.length - closeRev.length)
  if text = openID ++ id ++ beforeRev ++ rev ++ closeRev then
    some ((Finmap.singleton fieldID (.string id)).insert fieldRev (.string rev))
  else
    unmarshalRev text

theorem takeWhile_plain {id : Bytes} (isPlain : plain id = true) (rest : Bytes) :
    (id ++ 34 :: rest).takeWhile (· ≠ 34) = id := by
  induction id with
  | nil => simp
  | cons byte id ih =>
      simp only [plain, List.all_cons, Bool.and_eq_true] at isPlain
      have other : byte ≠ 34 := by
        rintro rfl
        exact absurd isPlain.1.2 (by decide)
      rw [List.cons_append, List.takeWhile_cons_of_pos (by simpa using other), ih isPlain.2]

theorem unmarshalIDRev_text {id : Bytes} (isPlain : plain id = true) (rev : GoString) :
    unmarshalIDRev (openID ++ id ++ beforeRev ++ rev ++ closeRev) =
      some ((Finmap.singleton fieldID (.string id)).insert fieldRev (.string rev)) := by
  have inner : (openID ++ id ++ beforeRev ++ rev ++ closeRev).drop openID.length =
      id ++ (beforeRev ++ (rev ++ closeRev)) := by
    simp only [List.append_assoc]
    exact List.drop_left
  have quote : (id ++ (beforeRev ++ (rev ++ closeRev))).takeWhile (· ≠ 34) = id :=
    takeWhile_plain isPlain _
  have rest : (id ++ (beforeRev ++ (rev ++ closeRev))).drop (id.length + beforeRev.length) =
      rev ++ closeRev := by
    rw [← List.append_assoc, ← List.length_append, List.drop_left]
  have size : (rev ++ closeRev).length - closeRev.length = rev.length := by simp
  unfold unmarshalIDRev
  simp only [inner, quote, rest, size, List.take_left, if_true]

theorem unmarshalIDRev_marshalIDRev {body : Doc} {rev : GoString} {text : Bytes}
    (carried : body.lookup fieldRev = some (.string rev))
    (marshalled : marshalIDRev body = some text) :
    ∃ decoded, unmarshalIDRev text = some decoded ∧
      decoded.lookup fieldRev = some (.string rev) := by
  unfold marshalIDRev at marshalled
  split at marshalled
  next id other _ foundRev =>
      cases carried.symm.trans foundRev
      split at marshalled
      next allPlain =>
          cases marshalled
          exact ⟨_, unmarshalIDRev_text allPlain.2.1 rev, Finmap.lookup_insert _⟩
      next => contradiction
  next =>
      -- the name of the first member tells the two texts apart
      have revFirst (id rest : Bytes) : text ≠ openID ++ id ++ rest := by
        intro same
        rw [marshalRev_eq carried marshalled] at same
        have firstName := congrArg (List.take 4) same
        simp [openRev, openID, quoted, fieldRev, fieldID, ascii] at firstName
      obtain ⟨decoded, unmarshalled, found⟩ := unmarshalRev_marshalRev carried marshalled
      refine ⟨decoded, ?_, found⟩
      unfold unmarshalIDRev
      simp only [List.append_assoc] at revFirst ⊢
      rw [if_neg (revFirst _ _), unmarshalled]

def idRev : JsonCodec :=
  { revOnly with
    marshal := marshalIDRev
    unmarshal := unmarshalIDRev
    unmarshal_nil := by decide
    unmarshal_marshal := fun carried _ => unmarshalIDRev_marshalIDRev carried }

end JsonCodec

namespace Doc

/-- A failed type assertion gives the zero value. -/
def stringField (doc : Doc) (field : GoString) : GoString :=
  match doc.lookup field with
  | some (.string text) => text
  | _ => []

def isDeleted (doc : Doc) : Bool :=
  match doc.lookup fieldDeleted with
  | some (.bool flag) => flag
  | _ => false

def recType (doc : Doc) : GoString :=
  match doc.lookup fieldType with
  | some (.string text) => text
  | _ => typeText

def vector (doc : Doc) : List UInt32 :=
  match doc.lookup fieldVector with
  | some (.floats entries) => entries
  | some (.array items) => items.map fun
      | .number bits => (Float.ofBits bits).toFloat32.toBits
      | _ => 0
  | _ => []

def splitDoc (doc : Doc) : Doc :=
  (((doc.erase fieldID).erase fieldDeleted).erase fieldType).erase fieldVector

theorem lookup_splitDoc {field : GoString}
    (kept : field ∉ [fieldID, fieldDeleted, fieldType, fieldVector]) (doc : Doc) :
    doc.splitDoc.lookup field = doc.lookup field := by
  simp only [List.mem_cons, List.not_mem_nil, or_false, not_or] at kept
  obtain ⟨notID, notDeleted, notType, notVector⟩ := kept
  rw [splitDoc, Finmap.lookup_erase_ne notVector, Finmap.lookup_erase_ne notType,
    Finmap.lookup_erase_ne notDeleted, Finmap.lookup_erase_ne notID]

theorem not_mem_splitDoc {field : GoString}
    (erased : field ∈ [fieldID, fieldDeleted, fieldType, fieldVector]) (doc : Doc) :
    field ∉ doc.splitDoc := by
  intro present
  simp only [splitDoc, Finmap.mem_erase] at present
  simp only [List.mem_cons, List.not_mem_nil, or_false] at erased
  tauto

end Doc

namespace Record

def readRev (json : JsonCodec) (r : Record) : Option GoString :=
  if r.payload = [] then
    none
  else
    match json.unmarshal r.payload with
    | none => none
    | some body =>
        match body.lookup fieldRev with
        | some (.string rev) => some rev
        | _ => none

/-- The document without its payload: the id, a type that is not the default
and a vector. -/
def header (id : GoString) (r : Record) : Doc :=
  let out : Doc := Finmap.singleton fieldID (.string id)
  let out := if r.type ≠ [] ∧ r.type ≠ typeText then
    out.insert fieldType (.string r.type) else out
  if r.vector ≠ [] then out.insert fieldVector (.floats r.vector) else out

def joinDoc (json : JsonCodec) (id : GoString) (r : Record) : Doc :=
  let out := r.header id
  if r.payload = [] then
    out
  else
    match json.unmarshal r.payload with
    | none => out.insert fieldPayload (.bytes r.payload)
    | some body =>
        let out := body ∪ out
        match out.lookup fieldRev with
        | some (.string _) => out
        | _ => out.insert fieldRev (.string revImported)

theorem lookup_header_id (id : GoString) (r : Record) :
    (r.header id).lookup fieldID = some (.string id) := by
  have notType : fieldID ≠ fieldType := by decide
  have notVector : fieldID ≠ fieldVector := by decide
  unfold header
  split <;> split <;>
    simp [Finmap.lookup_insert_of_ne, notType, notVector]

theorem lookup_header_of_ne {field : GoString} (other : field ∉ [fieldID, fieldType, fieldVector])
    (id : GoString) (r : Record) : (r.header id).lookup field = none := by
  simp only [List.mem_cons, List.not_mem_nil, or_false, not_or] at other
  obtain ⟨notID, notType, notVector⟩ := other
  have alone : field ∉ (Finmap.singleton fieldID (.string id) : Doc) := by
    rw [Finmap.mem_singleton]
    exact notID
  unfold header
  split <;> split <;>
    simp [Finmap.lookup_insert_of_ne, Finmap.lookup_eq_none, notType, notVector, alone]

theorem joinDoc_of_rev {json : JsonCodec} {r : Record} {body : Doc} {rev : GoString}
    (decoded : json.unmarshal r.payload = some body)
    (carried : body.lookup fieldRev = some (.string rev)) (id : GoString) :
    r.joinDoc json id = body ∪ r.header id := by
  have nonempty : r.payload ≠ [] := by
    intro empty
    rw [empty, json.unmarshal_nil] at decoded
    contradiction
  have joined : (body ∪ r.header id).lookup fieldRev = some (.string rev) := by
    rw [Finmap.lookup_union_left (Finmap.mem_of_lookup_eq_some carried), carried]
  simp only [joinDoc, nonempty, if_false, decoded, joined]

theorem joinDoc_rev {json : JsonCodec} {id rev : GoString} {r : Record}
    (carried : r.readRev json = some rev) :
    (r.joinDoc json id).lookup fieldRev = some (.string rev) := by
  unfold readRev at carried
  split at carried
  next => contradiction
  next =>
      split at carried
      next => contradiction
      next body decoded =>
          split at carried
          next text found =>
              cases carried
              rw [joinDoc_of_rev decoded found id,
                Finmap.lookup_union_left (Finmap.mem_of_lookup_eq_some found), found]
          next => contradiction

end Record

end NellDB
