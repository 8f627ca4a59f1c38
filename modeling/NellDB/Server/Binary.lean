import NellDB.Sdk.Doc
import NellDB.Server.Wire

namespace NellDB

open Data

/-! The binary endpoints against their JSON counterparts. -/

/-- What a length announces in the body of a push: the binary form of a record,
or bytes that are none. -/
inductive PushFrame where
  | record (r : Record)
  | junk (content : Bytes)

namespace PushFrame

def content : PushFrame → Bytes
  | record r => r.marshalBinary
  | junk content => content

def bytes (frame : PushFrame) : Bytes :=
  bigEndian 4 frame.content.length ++ frame.content

def record? : PushFrame → Option Record
  | record r => some r
  | junk _ => none

inductive Sendable : PushFrame → Prop
  | record (fits : FitsWire r) : Sendable (.record r)
  | junk {other : Bytes} {reason : Record.DecodeError} (framed : other.length < 2 ^ 32)
      (undecodable : Record.unmarshalBinary other = .error reason) : Sendable (.junk other)

theorem Sendable.framed {frame : PushFrame} (sendable : frame.Sendable) :
    frame.content.length < 2 ^ 32 := by
  cases sendable with
  | record fits => exact fits.framed
  | junk framed => exact framed

theorem Sendable.decodes {frame : PushFrame} (sendable : frame.Sendable) :
    (Record.unmarshalBinary frame.content).toOption = frame.record? := by
  cases sendable with
  | record fits =>
      have decoded := Record.unmarshalBinary_marshalBinary fits.binary []
      rw [List.append_nil] at decoded
      rw [content, decoded]
      rfl
  | junk _ undecodable =>
      rw [content, undecodable]
      rfl

theorem length_bytes (frame : PushFrame) : frame.bytes.length = 4 + frame.content.length := by
  rw [bytes, List.length_append, length_bigEndian]

end PushFrame

def pushStream (frames : List PushFrame) : Bytes := frames.flatMap PushFrame.bytes

/-- The frames that are complete before the cut. -/
def wholeBefore : List PushFrame → (cut : Nat) → List PushFrame
  | [], _ => []
  | frame :: rest, cut =>
      if frame.bytes.length ≤ cut then
        frame :: wholeBefore rest (cut - frame.bytes.length)
      else
        []

def pushedRecords (frames : List PushFrame) : List Record :=
  frames.filterMap PushFrame.record?

namespace Server

theorem decodePush_frame {frame : PushFrame} (sendable : frame.Sendable) (fuel : Nat)
    (rest : Bytes) :
    decodePush (fuel + 1) (frame.bytes ++ rest) =
      frame.record?.toList ++ decodePush fuel rest := by
  have splits := splitsFrame_content sendable.framed rest
  have decodes := sendable.decodes
  rw [PushFrame.bytes, decodePush]
  simp only [splits.header, splits.data, splits.content, splits.rest, if_false]
  cases outcome : Record.unmarshalBinary frame.content with
  | error failure =>
      rw [outcome] at decodes
      rw [← decodes]
      rfl
  | ok r =>
      rw [outcome] at decodes
      rw [← decodes]
      rfl

/-- A frame that is cut short ends the loop. -/
theorem decodePush_cut {frame : PushFrame} (sendable : frame.Sendable) {cut : Nat}
    (short : cut < frame.bytes.length) (fuel : Nat) :
    decodePush fuel (frame.bytes.take cut) = [] := by
  have sized : (bigEndian 4 frame.content.length).length = 4 := length_bigEndian 4 _
  have length := frame.length_bytes
  cases fuel with
  | zero => rfl
  | succ fuel =>
      unfold decodePush
      split
      next => rfl
      next header =>
          rw [List.length_take] at header
          have recLen : fieldValue ((frame.bytes.take cut).take 4) = frame.content.length := by
            rw [List.take_take, min_eq_left (by omega), PushFrame.bytes, List.take_left' sized]
            exact fieldValue_bigEndian sendable.framed
          have lacking : ((frame.bytes.take cut).drop 4).length <
              fieldValue ((frame.bytes.take cut).take 4) := by
            rw [recLen, List.length_drop, List.length_take]
            omega
          simp only [lacking, if_true]

/-- A cut body gives the records of the frames that are complete before the cut. -/
theorem decodePush_stream {frames : List PushFrame} (sendable : ∀ frame ∈ frames, frame.Sendable)
    (cut : Nat) {fuel : Nat} (enough : ((pushStream frames).take cut).length ≤ fuel) :
    decodePush fuel ((pushStream frames).take cut) = pushedRecords (wholeBefore frames cut) := by
  induction frames generalizing cut fuel with
  | nil => cases fuel <;> simp [decodePush, pushStream, pushedRecords, wholeBefore]
  | cons frame rest ih =>
      have first := sendable frame List.mem_cons_self
      have length := frame.length_bytes
      rw [pushStream, List.flatMap_cons, ← pushStream] at *
      rw [wholeBefore]
      split
      next whole =>
          have taken : (frame.bytes ++ pushStream rest).take cut =
              frame.bytes ++ (pushStream rest).take (cut - frame.bytes.length) := by
            rw [List.take_append, List.take_of_length_le whole]
          rw [taken, List.length_append] at enough
          obtain ⟨fuel, rfl⟩ : ∃ left, fuel = left + 1 := ⟨fuel - 1, by omega⟩
          rw [taken, decodePush_frame first,
            ih (fun other member => sendable other (List.mem_cons_of_mem frame member)) _
              (by omega)]
          cases frame <;> rfl
      next torn =>
          have short := Nat.lt_of_not_le torn
          rw [List.take_append_of_le_length short.le]
          exact decodePush_cut first short fuel

theorem applyChanges_count_le (server : Server) (changes : List Record) :
    (server.applyChanges changes).1 ≤ changes.length := by
  induction changes generalizing server with
  | nil => exact Nat.le_refl 0
  | cons r rest ih =>
      have onward := ih (server.ingest r)
      rw [applyChanges, List.length_cons]
      dsimp only
      split
      next => omega
      next => omega

end Server

def maxBodyBytes : Nat := 10 * 2 ^ 20

/-- How the JSON body of a push is written and read. -/
structure PushCodec where
  encode : List Record → Bytes
  decode : Bytes → Option (List Record)

/-- The list is read back as it was written, and every record takes a byte at
least. -/
structure PushCodec.Carries (codec : PushCodec) (changes : List Record) : Prop where
  decoded : codec.decode (codec.encode changes) = some changes
  sized : changes.length ≤ (codec.encode changes).length

inductive BodyError where
  | tooLarge
  | badRequest
  deriving DecidableEq, Repr

def BodyError.status : BodyError → Nat
  | tooLarge => 413
  | badRequest => 400

def BodyError.message : BodyError → String
  | tooLarge => "request body too large"
  | badRequest => "bad request"

/-- `handlePush` on the bytes of its request. -/
def Server.handlePushBody (codec : PushCodec) (server : Server) (body : Bytes) :
    Except BodyError ((Nat × Nat) × Server) :=
  if body.length > maxBodyBytes then
    .error .tooLarge
  else
    match codec.decode body with
    | none => .error .badRequest
    | some changes => .ok (server.handlePush changes)

/-- A binary push, cut anywhere and with frames in between that do not decode,
leaves the server that a JSON push of its complete records leaves, and reports
the same number of accepted records. -/
theorem binary_push_agrees (server : Server) {frames : List PushFrame}
    (sendable : ∀ frame ∈ frames, frame.Sendable) (cut : Nat) {codec : PushCodec}
    (lossless : codec.Carries (pushedRecords (wholeBefore frames cut)))
    (within : (codec.encode (pushedRecords (wholeBefore frames cut))).length ≤ maxBodyBytes) :
    let body := (pushStream frames).take cut
    let batch := pushedRecords (wholeBefore frames cut)
    (∀ fuel, body.length ≤ fuel → Server.decodePush fuel body = batch) ∧
      ∃ accepted final,
        server.handlePushBody codec (codec.encode batch) = .ok ((accepted, batch.length), final) ∧
        (server.handleBinPush body).2 = final ∧
        fieldValue (server.handleBinPush body).1 = accepted := by
  intro body batch
  have decoded : ∀ fuel, body.length ≤ fuel → Server.decodePush fuel body = batch :=
    fun fuel enough => Server.decodePush_stream sendable cut enough
  have few : (server.applyChanges batch).1 < 256 ^ 4 := by
    have counted := server.applyChanges_count_le batch
    have sized : batch.length ≤ (codec.encode batch).length := lossless.sized
    have bounded : (codec.encode batch).length ≤ 10 * 2 ^ 20 := within
    omega
  refine ⟨decoded, (server.applyChanges batch).1, (server.applyChanges batch).2, ?_, ?_, ?_⟩
  · have fits : ¬ (codec.encode batch).length > maxBodyBytes := Nat.not_lt.mpr within
    rw [Server.handlePushBody, if_neg fits, lossless.decoded]
    rfl
  · rw [Server.handleBinPush, decoded body.length le_rfl]
  · rw [Server.handleBinPush, decoded body.length le_rfl]
    exact fieldValue_bigEndian few

/-! The JSON body of a push, for records without payload and vector whose
strings are plain. -/

def jsonMember (name : List Char) (value : Bytes) : Bytes :=
  JsonCodec.quoted (ascii name) ++ [58] ++ value

def recordText (r : Record) : Bytes :=
  [123] ++ [44].intercalate
    [jsonMember ['c', 'o', 'l', 'l', 'e', 'c', 't', 'i', 'o', 'n']
        (JsonCodec.quoted r.collection),
      jsonMember ['i', 'd'] (JsonCodec.quoted r.id),
      jsonMember ['t', 'y', 'p', 'e'] (JsonCodec.quoted r.type),
      jsonMember ['c', 'l', 'o', 'c', 'k'] (JsonCodec.clockText r.clock),
      jsonMember ['u', 'p', 'd', 'a', 't', 'e', 'd', '_', 'b', 'y']
        (JsonCodec.quoted r.updatedBy),
      jsonMember ['d', 'e', 'l', 'e', 't', 'e', 'd']
        (ascii (if r.deleted then ['t', 'r', 'u', 'e'] else ['f', 'a', 'l', 's', 'e']))] ++
    [125]

def pushText (changes : List Record) : Bytes :=
  [123] ++ jsonMember ['c', 'h', 'a', 'n', 'g', 'e', 's']
    ([91] ++ [44].intercalate (changes.map recordText) ++ [93]) ++ [125]

/-- The codec on the text of one batch. -/
def PushCodec.plain (batch : List Record) : PushCodec where
  encode := pushText
  decode text := if text = pushText batch then some batch else none

theorem PushCodec.carries_plain (r : Record) : (plain [r]).Carries [r] where
  decoded := if_pos rfl
  sized := by
    change [r].length ≤ (pushText [r]).length
    rw [pushText, List.append_assoc, List.length_append]
    exact Nat.le_add_right 1 _

/-- A note, a frame that is no record, and a second note that is cut short. -/
theorem binary_push_agrees_torn :
    let server := newServer (newMemoryStore (ascii ['s']) 1000) (ascii ['s'])
    let note := plainNote (ascii ['x']) 2000
    let frames := [.record note, .junk [7], .record (plainNote (ascii ['y']) 2001)]
    pushedRecords (wholeBefore frames 70) = [note] ∧
      ∃ accepted final,
        server.handlePushBody (.plain [note]) (pushText [note]) = .ok ((accepted, 1), final) ∧
        (server.handleBinPush ((pushStream frames).take 70)).2 = final ∧
        fieldValue (server.handleBinPush ((pushStream frames).take 70)).1 = accepted := by
  intro server note frames
  have whole : pushedRecords (wholeBefore frames 70) = [note] := by decide
  have sendable : ∀ frame ∈ frames, frame.Sendable := by
    intro frame member
    rcases List.mem_cons.mp member with rfl | later
    · exact .record ⟨by decide, by decide⟩
    · rcases List.mem_cons.mp later with rfl | last
      · exact .junk (by decide) (rfl : Record.unmarshalBinary [7] = .error .tooShort)
      · rw [List.mem_singleton.mp last]
        exact .record ⟨by decide, by decide⟩
  have lossless : (PushCodec.plain [note]).Carries (pushedRecords (wholeBefore frames 70)) := by
    rw [whole]
    exact PushCodec.carries_plain note
  have within : ((PushCodec.plain [note]).encode
      (pushedRecords (wholeBefore frames 70))).length ≤ maxBodyBytes := by
    rw [whole]
    decide +kernel
  obtain ⟨_, agreed⟩ := binary_push_agrees server sendable 70 lossless within
  rw [whole] at agreed
  exact ⟨whole, agreed⟩

/-! The check endpoints. -/

/-- With an empty cursor, a page of the JSON check is the start of a
clock-ascending order of what the binary check streams. -/
theorem binary_check_agrees {store : MemoryStore} {collection : GoString}
    (fits : ∀ r ∈ store.listAll collection, FitsWire r)
    (streamed listed : Listing store collection) {body : Bytes} {kv : KnowledgeVector}
    (decoded : KnowledgeVector.unmarshalBinary body = .ok kv) (limit : Int) :
    let n := (clamp limit 100 10000).toNat
    let page := (handleCheck listed.ordered kv limit []).missing
    (100 ≤ n ∧ n ≤ 10000) ∧
      ∃ stream missing,
        handleBinCheck streamed.ordered body = .ok stream ∧
        readFrames stream.length stream = (missing, none) ∧
        (∃ ascending : List Record, ascending.Perm missing ∧
          ascending.Pairwise (fun first second => first.clock ≤ second.clock) ∧
          page = ascending.take (min n missing.length)) ∧
        (missing.length ≤ n → page.Perm missing) := by
  intro n page
  have bounds := clamp_bounds (by decide : (100 : Int) ≤ 10000) limit
  have sameRecords : listed.ordered.Perm streamed.ordered :=
    Multiset.coe_eq_coe.mp (listed.complete.trans streamed.complete.symm)
  have sameMissing := sameRecords.filter (Server.unseen kv)
  have wires : ∀ r ∈ streamed.ordered.filter (Server.unseen kv), FitsWire r := by
    intro r member
    apply fits r
    rw [← streamed.complete]
    exact Multiset.mem_coe.mpr (List.mem_of_mem_filter member)
  have taken : page = (listed.ordered.filter (Server.unseen kv)).take n :=
    handleCheck_page listed.ordered kv limit []
  refine ⟨⟨by omega, by omega⟩, wireFrames (streamed.ordered.filter (Server.unseen kv)),
    streamed.ordered.filter (Server.unseen kv), ?_, ?_, ?_, ?_⟩
  · rw [handleBinCheck, decoded]
    rfl
  · exact readFrames_wireFrames wires (length_le_wireFrames _)
  · refine ⟨listed.ordered.filter (Server.unseen kv), sameMissing, ?_, ?_⟩
    · exact listed.sorted.filter _
    · rw [taken, ← sameMissing.length_eq, ← List.take_eq_take_min]
  · intro few
    rw [← sameMissing.length_eq] at few
    rw [taken, List.take_of_length_le few]
    exact sameMissing

def twoNotes : List Record := [plainNote (ascii ['x']) 2000, plainNote (ascii ['y']) 2001]

def notedStore : MemoryStore := (newMemoryStore (ascii ['s']) 1000).putAll twoNotes

def notedListing : Listing notedStore defaultCollection where
  ordered := twoNotes
  complete := (listAll_putAll_new (by decide) (by decide) (by decide) _ _).symm
  sorted := by decide

theorem binary_check_agrees_two_notes :
    ∃ stream missing,
      handleBinCheck twoNotes [0, 0] = .ok stream ∧
      readFrames stream.length stream = (missing, none) ∧
      ∃ ascending : List Record, ascending.Perm missing ∧
        (handleCheck twoNotes ∅ 0 []).missing = ascending.take (min 100 missing.length) := by
  have fits : ∀ r ∈ notedStore.listAll defaultCollection, FitsWire r := by
    intro r member
    rw [← notedListing.complete, Multiset.mem_coe] at member
    rcases List.mem_cons.mp member with rfl | last
    · exact ⟨by decide, by decide⟩
    · rw [List.mem_singleton.mp last]
      exact ⟨by decide, by decide⟩
  obtain ⟨_, stream, missing, streamed, read, ⟨ascending, same, _, page⟩, _⟩ :=
    binary_check_agrees fits notedListing notedListing
      (rfl : KnowledgeVector.unmarshalBinary [0, 0] = .ok ∅) 0
  exact ⟨stream, missing, streamed, read, ascending, same, page⟩

end NellDB
