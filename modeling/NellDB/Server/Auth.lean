import NellDB.Sign

namespace NellDB

open Data

/-! HMAC authentication of the sync endpoints. -/

/-- Durations are nanoseconds. -/
def defaultMaxSkew : Int := 30 * 10 ^ 9

/-- `time.Since` of a time in Unix seconds; a difference beyond the range of a
duration is cut off at its ends. -/
def sinceUnix (now : Int) (ts : Int64) : Int :=
  max (-2 ^ 63) (min (2 ^ 63 - 1) (now - ts.toInt * 10 ^ 9))

inductive AuthError where
  | missingHeaders
  | invalidTimestamp
  | outOfRange
  | unreadableBody
  | invalidSignature
  deriving DecidableEq, Repr

namespace AuthError

def status : AuthError → Nat
  | unreadableBody => 400
  | _ => 401

def message : AuthError → String
  | missingHeaders => "missing authentication headers"
  | invalidTimestamp => "invalid timestamp"
  | outOfRange => "timestamp out of range"
  | unreadableBody => "failed to read body"
  | invalidSignature => "invalid signature"

end AuthError

structure BodyReader where
  data : Bytes
  pos : Nat
  deriving DecidableEq, Repr

/-- The body the next handler reads from. -/
inductive HandlerBody where
  | original (body : RequestBody)
  | buffered (reader : BodyReader)
  deriving DecidableEq, Repr

/-- The middleware: an error, or a call of the next handler.  `ParseInt` with base
10 and 64 bits accepts the numbers that `Atoi` accepts. -/
def hmacAuth (mac : Bytes → Bytes → Bytes) (secret : Bytes) (now : Int) (request : Request) :
    Except AuthError HandlerBody :=
  if secret = [] then
    .ok (.original request.body)
  else
    let tsStr := Header.get request.header timestampHeader
    let sigStr := Header.get request.header signatureHeader
    if tsStr = [] ∨ sigStr = [] then
      .error .missingHeaders
    else
      match atoi tsStr with
      | none => .error .invalidTimestamp
      | some ts =>
          let skew := sinceUnix now ts
          if skew < -defaultMaxSkew ∨ skew > defaultMaxSkew then
            .error .outOfRange
          else
            match request.body.readAll with
            | none => .error .unreadableBody
            | some body =>
                let want := signBody mac secret ts body
                if want = sigStr then
                  .ok (.buffered { data := body, pos := 0 })
                else
                  .error .invalidSignature

namespace BodyReader

/-- The bytes of one `Read` into a buffer of the given size, or end of file. -/
def read (reader : BodyReader) (size : Nat) : Option Bytes × BodyReader :=
  if reader.pos ≥ reader.data.length then
    (none, reader)
  else
    let copied := (reader.data.drop reader.pos).take size
    (some copied, { reader with pos := reader.pos + copied.length })

/-- Reads of the given sizes, up to the end of file: what they return together, and
whether the end was reported. -/
def readMany (reader : BodyReader) : List Nat → Bytes × Bool
  | [] => ([], false)
  | size :: rest =>
      match reader.read size with
      | (none, _) => ([], true)
      | (some copied, after) =>
          let (more, ended) := after.readMany rest
          (copied ++ more, ended)

def remaining (reader : BodyReader) : Bytes := reader.data.drop reader.pos

theorem read_cases (reader : BodyReader) (size : Nat) :
    reader.remaining = [] ∧ reader.read size = (none, reader) ∨
      reader.remaining ≠ [] ∧
        ∃ after, reader.read size = (some (reader.remaining.take size), after) ∧
          after.remaining = reader.remaining.drop size := by
  unfold read remaining
  split
  next past => exact .inl ⟨List.drop_eq_nil_of_le past, rfl⟩
  next within =>
      refine .inr ⟨?_, _, rfl, ?_⟩
      · rw [Ne, List.drop_eq_nil_iff]
        exact within
      dsimp only
      rw [← List.drop_drop, List.length_take]
      rcases Nat.le_total size (reader.data.drop reader.pos).length with short | long
      · rw [min_eq_left short]
      · rw [min_eq_right long, List.drop_length, List.drop_eq_nil_of_le long]

theorem readMany_eq (reader : BodyReader) (sizes : List Nat) :
    (reader.readMany sizes).1 = reader.remaining.take sizes.sum := by
  induction sizes generalizing reader with
  | nil => rfl
  | cons size rest ih =>
      rw [readMany, List.sum_cons, List.take_add]
      rcases reader.read_cases size with ⟨empty, ended⟩ | ⟨_, after, copied, left⟩
      · rw [ended, empty]
        simp
      · rw [copied, ← left, ← ih after]

theorem readMany_ended {reader : BodyReader} {sizes : List Nat}
    (ended : (reader.readMany sizes).2 = true) :
    (reader.readMany sizes).1 = reader.remaining := by
  induction sizes generalizing reader with
  | nil => contradiction
  | cons size rest ih =>
      rw [readMany] at ended ⊢
      rcases reader.read_cases size with ⟨empty, atEnd⟩ | ⟨_, after, copied, left⟩
      · rw [atEnd, empty]
      · rw [copied] at ended ⊢
        dsimp only at ended ⊢
        rw [ih ended, left, List.take_append_drop]

/-- One more read behind the last byte reports the end. -/
theorem readMany_enough {reader : BodyReader} {sizes : List Nat}
    (enough : reader.remaining.length ≤ sizes.sum) (size : Nat) :
    reader.readMany (sizes ++ [size]) = (reader.remaining, true) := by
  induction sizes generalizing reader with
  | nil =>
      have empty : reader.remaining = [] :=
        List.eq_nil_of_length_eq_zero (Nat.le_zero.mp enough)
      rcases reader.read_cases size with ⟨_, atEnd⟩ | ⟨nonempty, _⟩
      · rw [List.nil_append, readMany, atEnd, empty]
      · exact absurd empty nonempty
  | cons first rest ih =>
      rw [List.cons_append, readMany]
      rcases reader.read_cases first with ⟨empty, atEnd⟩ | ⟨_, after, copied, left⟩
      · rw [atEnd, empty]
      · rw [List.sum_cons] at enough
        have onward : after.remaining.length ≤ rest.sum := by
          rw [left, List.length_drop]
          omega
        rw [copied]
        dsimp only
        rw [ih onward, left, List.take_append_drop]

end BodyReader

/-- Whatever sizes the handler reads with, it gets the body from its start, the
whole body when the end is reported, and the end once it has read everything. -/
structure BodyReader.Reads (reader : BodyReader) (body : Bytes) : Prop where
  start : ∀ sizes, (reader.readMany sizes).1 = body.take sizes.sum
  whole : ∀ sizes, (reader.readMany sizes).2 = true → (reader.readMany sizes).1 = body
  ends : ∀ sizes, body.length ≤ sizes.sum →
    ∀ size, reader.readMany (sizes ++ [size]) = (body, true)

theorem BodyReader.reads_new (body : Bytes) :
    BodyReader.Reads { data := body, pos := 0 } body where
  start sizes := readMany_eq _ sizes
  whole _ ended := readMany_ended ended
  ends sizes enough size :=
    @readMany_enough { data := body, pos := 0 } sizes enough size

/-- The timestamp is at most 30 seconds away from the server's time. -/
def WithinSkew (now : Int) (ts : Int64) : Prop := |now - ts.toInt * 10 ^ 9| ≤ 30 * 10 ^ 9

theorem sinceUnix_within_iff (now : Int) (ts : Int64) :
    ¬ (sinceUnix now ts < -defaultMaxSkew ∨ sinceUnix now ts > defaultMaxSkew) ↔
      WithinSkew now ts := by
  unfold sinceUnix defaultMaxSkew WithinSkew
  rw [abs_le]
  omega

section

variable {mac : Bytes → Bytes → Bytes} {secret : Bytes}

/-- When the next handler is called, and on which body. -/
theorem hmacAuth_ok_iff (keyed : secret ≠ []) (nonempty : ∀ message, mac secret message ≠ [])
    (now : Int) (request : Request) (handed : HandlerBody) :
    hmacAuth mac secret now request = .ok handed ↔
      ∃ ts body, atoi (Header.get request.header timestampHeader) = some ts ∧
        WithinSkew now ts ∧ request.body.readAll = some body ∧
        Header.get request.header signatureHeader = signBody mac secret ts body ∧
        handed = .buffered { data := body, pos := 0 } := by
  unfold hmacAuth
  rw [if_neg keyed]
  dsimp only
  split
  next missing =>
      -- an empty timestamp does not parse, and no signature is empty
      simp only [reduceCtorEq, false_iff, not_exists]
      rintro ts body ⟨parsed, _, _, signature, _⟩
      rcases missing with noTimestamp | noSignature
      · have unparsed : atoi [] = none := rfl
        rw [noTimestamp, unparsed] at parsed
        contradiction
      · rw [noSignature] at signature
        exact signBody_ne_nil nonempty ts body signature.symm
  next present =>
      cases parsed : atoi (Header.get request.header timestampHeader) with
      | none => simp
      | some ts =>
          simp only [Option.some.injEq, exists_and_left, exists_eq_left']
          rw [← sinceUnix_within_iff]
          split
          next outside => simp [outside]
          next inside =>
              cases received : request.body.readAll with
              | none => simp
              | some body =>
                  simp only [Option.some.injEq, exists_eq_left']
                  split
                  next same => simp [inside, same, eq_comm]
                  next different => simp [Ne.symm different]

end

end NellDB
