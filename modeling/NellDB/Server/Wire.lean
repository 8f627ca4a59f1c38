import NellDB.Server.Push
import NellDB.Store.Vector

namespace NellDB

open Data

/-! The binary sync protocol: records travel as a length and their binary form. -/

def wireFrame (r : Record) : Bytes :=
  bigEndian 4 r.marshalBinary.length ++ r.marshalBinary

def wireFrames (records : List Record) : Bytes := records.flatMap wireFrame

structure FitsWire (r : Record) : Prop where
  binary : r.FitsBinary
  framed : r.marshalBinary.length < 2 ^ 32

/-- `handleBinCheck` on the sorted slice `all`: the unseen records, or the error
of a vector that does not unmarshal. -/
def handleBinCheck (all : List Record) (body : Bytes) :
    Except KnowledgeVector.DecodeError Bytes := do
  let kv ← KnowledgeVector.unmarshalBinary body
  return wireFrames (all.filter (Server.unseen kv))

inductive PullError where
  | frameHeader
  | frameData
  | unmarshal (failure : Record.DecodeError)
  deriving DecidableEq, Repr

/-- The frame loop of `pull`: the records it reaches, and the error that ends it
unless the stream ends between two frames. -/
def readFrames : (fuel : Nat) → Bytes → List Record × Option PullError
  | 0, _ => ([], none)
  | fuel + 1, body =>
      if body = [] then
        ([], none)
      else if body.length < 4 then
        ([], some .frameHeader)
      else
        let recLen := fieldValue (body.take 4)
        let rest := body.drop 4
        if rest.length < recLen then
          ([], some .frameData)
        else
          match Record.unmarshalBinary (rest.take recLen) with
          | .error failure => ([], some (.unmarshal failure))
          | .ok r =>
              let (records, failure) := readFrames fuel (rest.drop recLen)
              (r :: records, failure)

theorem length_wireFrame (r : Record) :
    (wireFrame r).length = 4 + r.marshalBinary.length := by
  rw [wireFrame, List.length_append, length_bigEndian]

theorem length_le_wireFrames (records : List Record) :
    records.length ≤ (wireFrames records).length := by
  induction records with
  | nil => exact Nat.zero_le _
  | cons r rest ih =>
      rw [wireFrames, List.flatMap_cons, ← wireFrames, List.length_append,
        length_wireFrame, List.length_cons]
      omega

/-- A frame whose length fits its header is taken off the body as it is. -/
structure SplitsFrame (body content rest : Bytes) : Prop where
  nonempty : body ≠ []
  header : ¬ body.length < 4
  data : ¬ (body.drop 4).length < fieldValue (body.take 4)
  content : (body.drop 4).take (fieldValue (body.take 4)) = content
  rest : (body.drop 4).drop (fieldValue (body.take 4)) = rest

theorem splitsFrame_content {content : Bytes} (framed : content.length < 2 ^ 32)
    (rest : Bytes) :
    SplitsFrame (bigEndian 4 content.length ++ content ++ rest) content rest := by
  have sized : (bigEndian 4 content.length).length = 4 := length_bigEndian 4 _
  rw [List.append_assoc]
  have recLen : fieldValue ((bigEndian 4 content.length ++ (content ++ rest)).take 4) =
      content.length := by
    rw [List.take_left' sized]
    exact fieldValue_bigEndian framed
  have data : (bigEndian 4 content.length ++ (content ++ rest)).drop 4 = content ++ rest :=
    List.drop_left' sized
  refine ⟨?_, ?_, ?_, ?_, ?_⟩
  · apply List.ne_nil_of_length_pos
    rw [List.length_append]
    omega
  · rw [List.length_append]
    omega
  · rw [data, recLen, List.length_append]
    omega
  · rw [data, recLen, List.take_left]
  · rw [data, recLen, List.drop_left]

theorem splitsFrame {r : Record} (framed : r.marshalBinary.length < 2 ^ 32) (rest : Bytes) :
    SplitsFrame (wireFrame r ++ rest) r.marshalBinary rest :=
  splitsFrame_content framed rest

structure ReadsFrame (body : Bytes) (r : Record) (rest : Bytes) : Prop where
  nonempty : body ≠ []
  header : ¬ body.length < 4
  data : ¬ (body.drop 4).length < fieldValue (body.take 4)
  record : Record.unmarshalBinary ((body.drop 4).take (fieldValue (body.take 4))) = .ok r
  rest : (body.drop 4).drop (fieldValue (body.take 4)) = rest

theorem readsFrame {r : Record} (fits : FitsWire r) (rest : Bytes) :
    ReadsFrame (wireFrame r ++ rest) r rest := by
  have splits := splitsFrame fits.framed rest
  have decoded := Record.unmarshalBinary_marshalBinary fits.binary []
  rw [List.append_nil] at decoded
  refine ⟨splits.nonempty, splits.header, splits.data, ?_, splits.rest⟩
  rw [splits.content, decoded]

theorem decodePush_wireFrames {records : List Record} (fits : ∀ r ∈ records, FitsWire r)
    {fuel : Nat} (enough : records.length ≤ fuel) :
    Server.decodePush fuel (wireFrames records) = records := by
  induction records generalizing fuel with
  | nil => cases fuel <;> simp [Server.decodePush, wireFrames]
  | cons r rest ih =>
      obtain ⟨fuel, rfl⟩ : ∃ left, fuel = left + 1 :=
        ⟨fuel - 1, by rw [List.length_cons] at enough; omega⟩
      have reads := readsFrame (fits r List.mem_cons_self) (wireFrames rest)
      have onward := ih (fun other member => fits other (List.mem_cons_of_mem r member))
        (Nat.le_of_succ_le_succ enough)
      rw [wireFrames, List.flatMap_cons, ← wireFrames, Server.decodePush]
      simp only [reads.header, reads.data, reads.record, reads.rest, if_false, onward]

theorem readFrames_wireFrames {records : List Record} (fits : ∀ r ∈ records, FitsWire r)
    {fuel : Nat} (enough : records.length ≤ fuel) :
    readFrames fuel (wireFrames records) = (records, none) := by
  induction records generalizing fuel with
  | nil => cases fuel <;> simp [readFrames, wireFrames]
  | cons r rest ih =>
      obtain ⟨fuel, rfl⟩ : ∃ left, fuel = left + 1 :=
        ⟨fuel - 1, by rw [List.length_cons] at enough; omega⟩
      have reads := readsFrame (fits r List.mem_cons_self) (wireFrames rest)
      have onward := ih (fun other member => fits other (List.mem_cons_of_mem r member))
        (Nat.le_of_succ_le_succ enough)
      rw [wireFrames, List.flatMap_cons, ← wireFrames, readFrames]
      simp only [reads.nonempty, reads.header, reads.data, reads.record, reads.rest, if_false,
        onward]

/-- The part of a frame that arrives before a cut holds no record. -/
theorem readFrames_take_wireFrame {r : Record} (framed : r.marshalBinary.length < 2 ^ 32)
    {cut : Nat} (short : cut < (wireFrame r).length) (fuel : Nat) :
    (readFrames fuel ((wireFrame r).take cut)).1 = [] := by
  have sized : (bigEndian 4 r.marshalBinary.length).length = 4 := length_bigEndian 4 _
  have length := length_wireFrame r
  cases fuel with
  | zero => rfl
  | succ fuel =>
      unfold readFrames
      split
      next => rfl
      next =>
          split
          next => rfl
          next header =>
              rw [List.length_take] at header
              have recLen : fieldValue (((wireFrame r).take cut).take 4) =
                  r.marshalBinary.length := by
                rw [List.take_take, min_eq_left (by omega), wireFrame, List.take_left' sized]
                exact fieldValue_bigEndian framed
              have lacking : (((wireFrame r).take cut).drop 4).length <
                  fieldValue (((wireFrame r).take cut).take 4) := by
                rw [recLen, List.length_drop, List.length_take]
                omega
              simp only [lacking, if_true]

/-- Nothing is read of a stream from a frame on that does not decode. -/
theorem readFrames_undecodable {r : Record} (framed : r.marshalBinary.length < 2 ^ 32)
    {failure : Record.DecodeError}
    (undecodable : Record.unmarshalBinary r.marshalBinary = .error failure) (rest : Bytes)
    (fuel cut : Nat) : (readFrames fuel ((wireFrame r ++ rest).take cut)).1 = [] := by
  by_cases short : cut < (wireFrame r).length
  · rw [List.take_append_of_le_length short.le]
    exact readFrames_take_wireFrame framed short fuel
  · rw [List.take_append, List.take_of_length_le (not_lt.mp short)]
    cases fuel with
    | zero => rfl
    | succ fuel =>
        have splits := splitsFrame framed (rest.take (cut - (wireFrame r).length))
        rw [readFrames]
        simp only [splits.nonempty, splits.header, splits.data, splits.content, undecodable,
          if_false]

/-- What is read from a stream that is cut at any byte is the start of what was
sent up to a tail of which nothing is read, and all of it if the cut is behind it. -/
theorem readFrames_take_append {records : List Record} (fits : ∀ r ∈ records, FitsWire r)
    {tail : Bytes} (stuck : ∀ fuel cut, (readFrames fuel (tail.take cut)).1 = [])
    (cut : Nat) {fuel : Nat} (enough : ((wireFrames records ++ tail).take cut).length ≤ fuel) :
    ∃ count, (readFrames fuel ((wireFrames records ++ tail).take cut)).1 = records.take count ∧
      ((wireFrames records).length ≤ cut → records.length ≤ count) := by
  induction records generalizing cut fuel with
  | nil => exact ⟨0, by simpa [wireFrames] using stuck fuel cut, fun _ => le_rfl⟩
  | cons r rest ih =>
      have fitsFirst := fits r List.mem_cons_self
      have length := length_wireFrame r
      rw [wireFrames, List.flatMap_cons, ← wireFrames, List.append_assoc] at *
      by_cases short : cut < (wireFrame r).length
      · refine ⟨0, ?_, ?_⟩
        · rw [List.take_append_of_le_length short.le, List.take_zero]
          exact readFrames_take_wireFrame fitsFirst.framed short fuel
        · rw [List.length_append]
          omega
      · have whole : (wireFrame r ++ (wireFrames rest ++ tail)).take cut =
            wireFrame r ++ (wireFrames rest ++ tail).take (cut - (wireFrame r).length) := by
          rw [List.take_append, List.take_of_length_le (not_lt.mp short)]
        rw [whole] at enough ⊢
        rw [List.length_append] at enough
        obtain ⟨fuel, rfl⟩ : ∃ left, fuel = left + 1 := ⟨fuel - 1, by omega⟩
        obtain ⟨count, read, complete⟩ :=
          ih (fun other member => fits other (List.mem_cons_of_mem r member))
            (cut - (wireFrame r).length) (by omega : _ ≤ fuel)
        have reads := readsFrame fitsFirst
          ((wireFrames rest ++ tail).take (cut - (wireFrame r).length))
        refine ⟨count + 1, ?_, ?_⟩
        · rw [readFrames]
          simp only [reads.nonempty, reads.header, reads.data, reads.record, reads.rest,
            if_false, read, List.take_succ_cons]
        · rw [List.length_append, List.length_cons]
          intro uncut
          have onward := complete (by omega)
          omega

theorem readFrames_take_wireFrames {records : List Record} (fits : ∀ r ∈ records, FitsWire r)
    (cut : Nat) :
    ∃ count, (readFrames ((wireFrames records).take cut).length
      ((wireFrames records).take cut)).1 = records.take count ∧
      ((wireFrames records).length ≤ cut → records.length ≤ count) := by
  have stuck (fuel cut : Nat) : (readFrames fuel (([] : Bytes).take cut)).1 = [] := by
    cases fuel <;> simp [readFrames]
  have read := readFrames_take_append fits stuck cut (le_refl _)
  rw [List.append_nil] at read
  exact read

end NellDB
