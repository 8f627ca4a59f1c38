import NellDB.Data.Champion
import NellDB.Data.Decimal
import NellDB.Record

namespace NellDB

open Data

/-! Request signing, shared by the server and its clients. -/

/-- What is written to the MAC: the timestamp, a line feed and the body. -/
def signedMessage (timestamp : Int64) (body : Bytes) : Bytes :=
  itoa timestamp ++ [10] ++ body

/-- `mac` is HMAC-SHA256, of a key and a message. -/
def signBody (mac : Bytes → Bytes → Bytes) (secret : Bytes) (timestamp : Int64)
    (body : Bytes) : GoString :=
  hexEncode (mac secret (signedMessage timestamp body))

theorem takeWhile_signedMessage (timestamp : Int64) (body : Bytes) :
    (signedMessage timestamp body).takeWhile (fun byte => decide (byte ≠ 10)) =
      itoa timestamp := by
  have digits : ∀ byte ∈ itoa timestamp, decide (byte ≠ 10) = true := by
    intro byte member
    have above := minus_le_itoa timestamp byte member
    rw [decide_eq_true_iff]
    intro lineFeed
    rw [lineFeed] at above
    exact absurd above (by decide)
  rw [signedMessage, List.append_assoc, List.takeWhile_append_of_pos digits]
  exact List.append_nil _

/-- The first line feed ends the timestamp, so no two pairs share a message. -/
theorem signedMessage_inj {first second : Int64} {body other : Bytes}
    (same : signedMessage first body = signedMessage second other) :
    first = second ∧ body = other := by
  have sameTime : first = second := by
    apply itoa_injective
    rw [← takeWhile_signedMessage first body, same, takeWhile_signedMessage]
  subst sameTime
  exact ⟨rfl, List.append_cancel_left same⟩

section

variable {mac : Bytes → Bytes → Bytes} {secret : Bytes}

theorem signBody_inj (injective : Function.Injective (mac secret)) {first second : Int64}
    {body other : Bytes}
    (same : signBody mac secret first body = signBody mac secret second other) :
    first = second ∧ body = other :=
  signedMessage_inj (injective (hexEncode_injective same))

theorem signBody_ne_nil (nonempty : ∀ message, mac secret message ≠ []) (timestamp : Int64)
    (body : Bytes) : signBody mac secret timestamp body ≠ [] :=
  hexEncode_ne_nil (nonempty _)

end

/-! Requests, as far as signing looks at them. -/

abbrev Header := FiniteMap GoString (List GoString)

namespace Header

/-- The first value of a field; the empty string if there is none. -/
def get (header : Header) (name : GoString) : GoString :=
  ((header.lookup name).bind List.head?).getD []

def set (header : Header) (name value : GoString) : Header := header.insert name [value]

theorem get_set (header : Header) (name value : GoString) :
    get (set header name value) name = value := by
  rw [get, set, Finmap.lookup_insert]
  rfl

theorem get_set_of_ne (header : Header) {name other : GoString} (different : other ≠ name)
    (value : GoString) : get (set header name value) other = get header other := by
  rw [get, set, Finmap.lookup_insert_of_ne _ different, get]

end Header

def timestampHeader : GoString :=
  ascii ['X', '-', 'N', 'e', 'l', 'l', '-', 'T', 'i', 'm', 'e', 's', 't', 'a', 'm', 'p']

def signatureHeader : GoString :=
  ascii ['X', '-', 'N', 'e', 'l', 'l', '-', 'S', 'i', 'g', 'n', 'a', 't', 'u', 'r', 'e']

/-- A body, by what reading it to its end gives. -/
inductive RequestBody where
  | absent
  | content (bytes : Bytes)
  | failing
  deriving DecidableEq, Repr

def RequestBody.readAll : RequestBody → Option Bytes
  | absent => some []
  | content bytes => some bytes
  | failing => none

structure Request where
  header : Header
  body : RequestBody

end NellDB
