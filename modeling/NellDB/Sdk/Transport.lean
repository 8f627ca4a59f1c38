import NellDB.Server.Auth

namespace NellDB

open Data

/-! The signing client against the authenticating server. -/

def unixSeconds (now : Int) : Int64 := Int64.ofInt (now / 10 ^ 9)

/-- `signingTransport.RoundTrip` up to the inner transport: the request it hands on,
unless the body cannot be read. -/
def signingRoundTrip (mac : Bytes → Bytes → Bytes) (secret : Bytes) (now : Int)
    (req : Request) : Option Request :=
  match req.body.readAll with
  | none => none
  | some bodyBytes =>
      let ts := unixSeconds now
      let sig := signBody mac secret ts bodyBytes
      some { req with
        header := Header.set (Header.set req.header timestampHeader (itoa ts)) signatureHeader sig }

theorem timestampHeader_ne_signatureHeader : timestampHeader ≠ signatureHeader := by decide

theorem signingRoundTrip_eq_some {mac : Bytes → Bytes → Bytes} {secret : Bytes} {now : Int}
    {req sent : Request} (signed : signingRoundTrip mac secret now req = some sent) :
    ∃ body, sent.body.readAll = some body ∧
      Header.get sent.header timestampHeader = itoa (unixSeconds now) ∧
      Header.get sent.header signatureHeader = signBody mac secret (unixSeconds now) body := by
  unfold signingRoundTrip at signed
  cases read : req.body.readAll with
  | none =>
      rw [read] at signed
      contradiction
  | some body =>
      rw [read] at signed
      cases signed
      refine ⟨body, read, ?_, ?_⟩
      · rw [Header.get_set_of_ne _ timestampHeader_ne_signatureHeader, Header.get_set]
      · rw [Header.get_set]

/-- The signature of a request binds its timestamp and its body. -/
theorem hmac_auth_binds {mac : Bytes → Bytes → Bytes} {secret : Bytes} (keyed : secret ≠ [])
    (injective : Function.Injective (mac secret))
    (nonempty : ∀ message, mac secret message ≠ []) (now : Int) (request : Request) :
    ((∃ handed, hmacAuth mac secret now request = .ok handed) ↔
      ∃ ts body, atoi (Header.get request.header timestampHeader) = some ts ∧
        WithinSkew now ts ∧ request.body.readAll = some body ∧
        Header.get request.header signatureHeader = signBody mac secret ts body) ∧
    (∀ handed, hmacAuth mac secret now request = .ok handed →
      ∃ reader body, handed = .buffered reader ∧ request.body.readAll = some body ∧
        reader.Reads body) ∧
    (∀ ts body otherTs otherBody handed,
      atoi (Header.get request.header timestampHeader) = some ts →
      request.body.readAll = some body →
      Header.get request.header signatureHeader = signBody mac secret otherTs otherBody →
      hmacAuth mac secret now request = .ok handed → otherTs = ts ∧ otherBody = body) ∧
    ∀ signedAt req, signingRoundTrip mac secret signedAt req = some request →
      WithinSkew now (unixSeconds signedAt) →
      ∃ handed, hmacAuth mac secret now request = .ok handed := by
  have called := hmacAuth_ok_iff keyed nonempty now request
  refine ⟨?_, ?_, ?_, ?_⟩
  · constructor
    · rintro ⟨handed, accepted⟩
      obtain ⟨ts, body, parsed, within, received, signature, _⟩ := (called handed).mp accepted
      exact ⟨ts, body, parsed, within, received, signature⟩
    · rintro ⟨ts, body, parsed, within, received, signature⟩
      exact ⟨_, (called _).mpr ⟨ts, body, parsed, within, received, signature, rfl⟩⟩
  · intro handed accepted
    obtain ⟨_, body, _, _, received, _, rfl⟩ := (called handed).mp accepted
    exact ⟨_, body, rfl, received, BodyReader.reads_new body⟩
  · intro ts body otherTs otherBody handed parsed received signature accepted
    obtain ⟨_, _, sameTs, _, sameBody, own, _⟩ := (called handed).mp accepted
    rw [parsed] at sameTs
    rw [received] at sameBody
    cases sameTs
    cases sameBody
    exact signBody_inj injective (signature.symm.trans own)
  · intro signedAt req signed within
    obtain ⟨body, received, timestamp, signature⟩ := signingRoundTrip_eq_some signed
    refine ⟨_, (called _).mpr ⟨unixSeconds signedAt, body, ?_, within, received, signature, rfl⟩⟩
    rw [timestamp, atoi_itoa]

/-- A push signed by the client and received ten seconds later. -/
theorem hmac_auth_binds_signed_push :
    let mac : Bytes → Bytes → Bytes := fun key message => key ++ message
    let secret := ascii ['k']
    let signedAt : Int := 1700000000 * 10 ^ 9
    let req : Request := { header := ∅, body := .content [123, 125] }
    ∃ sent reader body, signingRoundTrip mac secret signedAt req = some sent ∧
      hmacAuth mac secret (signedAt + 10 ^ 10) sent = .ok (.buffered reader) ∧
      sent.body = .content body ∧ reader.Reads body := by
  intro mac secret signedAt req
  have injective : Function.Injective (mac secret) := List.append_right_injective secret
  have nonempty : ∀ message, mac secret message ≠ [] := by
    intro message
    exact List.cons_ne_nil _ _
  have within : WithinSkew (signedAt + 10 ^ 10) (unixSeconds signedAt) := by
    unfold WithinSkew
    decide +kernel
  obtain ⟨sent, signed, content⟩ : ∃ sent, signingRoundTrip mac secret signedAt req = some sent ∧
      sent.body = .content [123, 125] := ⟨_, rfl, rfl⟩
  have keyed : secret ≠ [] := List.cons_ne_nil _ _
  obtain ⟨_, handled, _, accepted⟩ :=
    hmac_auth_binds keyed injective nonempty (signedAt + 10 ^ 10) sent
  obtain ⟨handed, called⟩ := accepted signedAt req signed within
  obtain ⟨reader, body, rfl, received, reads⟩ := handled handed called
  rw [content] at received
  cases received
  exact ⟨sent, reader, [123, 125], signed, called, content, reads⟩

end NellDB
