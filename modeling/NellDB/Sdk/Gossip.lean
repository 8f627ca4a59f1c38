import Mathlib.Algebra.BigOperators.Group.Finset.Basic
import Mathlib.Order.WellFounded
import NellDB.Sdk.LiveWS

namespace NellDB

open Data

/-! The exchange of records stops.  What a server can be sent is settled by the
keys and stamps that are in the system, and every broadcast uses one of them up. -/

namespace Record

/-- What a store decides by: the key and the stamp. -/
def mark (r : Record) : GoString × (HLC ×ₗ GoString) := (r.defaulted.key, r.stamp)

def rebuiltMark (id : GoString) : GoString × (HLC ×ₗ GoString) :=
  ({ zero with id } : Record).overJson.mark

theorem overJson_overJson (r : Record) : r.overJson.overJson = r.overJson := by
  have coerced (text : GoString) : Utf8.coerce (Utf8.coerce text) = Utf8.coerce text :=
    Utf8.valid_coerce text
  simp only [overJson, coerced]

theorem rebuiltMark_coerce (id : GoString) : rebuiltMark (Utf8.coerce id) = rebuiltMark id :=
  congrArg mark (overJson_overJson { zero with id })

theorem mark_defaulted (r : Record) : r.defaulted.mark = r.mark := by
  rw [mark, defaulted_defaulted]
  rfl

theorem mark_overJson_defaulted (r : Record) : r.defaulted.overJson.mark = r.overJson.mark := by
  by_cases named : r.collection = []
  · have collections : r.defaulted.overJson.defaulted.collection =
        r.overJson.defaulted.collection := by
      simp only [defaulted, overJson, named]
      rfl
    simp only [mark, key, collections]
    rfl
  · rw [defaulted_of_named named]

/-- The marks of a record, as it is, decoded and rebuilt, are in the pool. -/
structure InPool (pool : Finset (GoString × (HLC ×ₗ GoString))) (r : Record) : Prop where
  plain : r.mark ∈ pool
  decoded : r.overJson.mark ∈ pool
  rebuilt : rebuiltMark r.id ∈ pool

variable {pool : Finset (GoString × (HLC ×ₗ GoString))}

theorem InPool.overJson {r : Record} (inPool : r.InPool pool) : r.overJson.InPool pool where
  plain := inPool.decoded
  decoded := by
    rw [overJson_overJson]
    exact inPool.decoded
  rebuilt := by
    rw [Record.overJson, rebuiltMark_coerce]
    exact inPool.rebuilt

theorem inPool_rebuild (change : Change) (rebuilt : rebuiltMark change.id ∈ pool)
    (payload : Bytes) : (change.rebuild payload).overJson.InPool pool where
  plain := rebuilt
  decoded := by
    rw [overJson_overJson]
    exact rebuilt
  rebuilt := by
    rw [Record.overJson, rebuiltMark_coerce]
    exact rebuilt

theorem passable_inPool {ι : Type} (pool : Finset (GoString × (HLC ×ₗ GoString)))
    (collection : ι → GoString) : LiveWS.Passable (InPool pool) collection where
  overJson inPool := inPool.overJson
  defaulted {r} inPool :=
    { plain := by
        rw [mark_defaulted]
        exact inPool.plain
      decoded := by
        rw [mark_overJson_defaulted]
        exact inPool.decoded
      rebuilt := inPool.rebuilt }
  rebuilt {r} inPool _ _ payload :=
    inPool_rebuild ⟨r.id, [], r.deleted, none⟩ inPool.rebuilt payload

end Record

namespace LiveWS

variable {ι : Type}

/-! Every state has a finite pool. -/

def records (sys : LiveWS ι) : Set Record :=
  {r | (∃ changes ∈ sys.toServer, r ∈ changes) ∨
    (∃ receipt ∈ sys.receipts, r ∈ receipt.changes ++ receipt.remaining) ∨
    (∃ sent ∈ sys.toClients, r ∈ sent.2) ∨
    ∃ client position, (sys.clients client).store.records.lookup position = some r}

theorem finite_of_messages {α : Type} (messages : Multiset α) (contents : α → List Record) :
    {r | ∃ sent ∈ messages, r ∈ contents sent}.Finite := by
  refine (messages.finite_toSet.biUnion fun sent _ => (contents sent).finite_toSet).subset ?_
  rintro r ⟨sent, member, isContent⟩
  exact Set.mem_biUnion member isContent

theorem finite_records [Finite ι] (sys : LiveWS ι) : sys.records.Finite := by
  have stored : {r | ∃ client position,
      (sys.clients client).store.records.lookup position = some r}.Finite := by
    have each (client : ι) : {r | ∃ position,
        (sys.clients client).store.records.lookup position = some r}.Finite :=
      FiniteMap.finite_entries _
    refine (Set.finite_iUnion each).subset ?_
    rintro r ⟨client, found⟩
    exact Set.mem_iUnion.mpr ⟨client, found⟩
  exact (finite_of_messages _ _).union ((finite_of_messages _ _).union
    ((finite_of_messages _ _).union stored))

theorem exists_pool [Finite ι] (sys : LiveWS ι) :
    ∃ pool, sys.Carries (Record.InPool pool) fun client => (sys.clients client).collection := by
  have feeds : {id | ∃ client, ∃ change ∈ sys.feeds client, change.id = id}.Finite := by
    refine (Set.finite_iUnion fun client => ((sys.feeds client).map
      Change.id).finite_toSet).subset ?_
    rintro id ⟨client, change, member, rfl⟩
    exact Set.mem_iUnion.mpr ⟨client, List.mem_map_of_mem member⟩
  have plain := sys.finite_records.image Record.mark
  have decoded := sys.finite_records.image fun r => r.overJson.mark
  have rebuilt := (sys.finite_records.image Record.id).union feeds |>.image Record.rebuiltMark
  let pool := plain.toFinset ∪ (decoded.toFinset ∪ rebuilt.toFinset)
  have inPool (r : Record) (member : r ∈ sys.records) : r.InPool pool := by
    refine ⟨?_, ?_, ?_⟩
    · exact Finset.mem_union_left _ (plain.mem_toFinset.mpr ⟨r, member, rfl⟩)
    · exact Finset.mem_union_right _ (Finset.mem_union_left _
        (decoded.mem_toFinset.mpr ⟨r, member, rfl⟩))
    · exact Finset.mem_union_right _ (Finset.mem_union_right _
        (rebuilt.mem_toFinset.mpr ⟨r.id, .inl ⟨r, member, rfl⟩, rfl⟩))
  refine ⟨pool, fun _ => rfl, ?_, ?_, ?_, ?_, ?_⟩
  · intro client
    refine ⟨?_, ?_⟩
    · intro id r _ found
      exact inPool r (.inr (.inr (.inr ⟨client, _, found⟩)))
    · intro change member _ _ payload
      refine Record.inPool_rebuild change (Finset.mem_union_right _ (Finset.mem_union_right _
        (rebuilt.mem_toFinset.mpr ⟨change.id, .inr ⟨client, change, member, rfl⟩, rfl⟩))) payload
  · intro changes member r isSent
    exact inPool r (.inl ⟨changes, member, isSent⟩)
  · intro receipt member r isChange
    exact inPool r (.inr (.inl ⟨receipt, member, List.mem_append_left _ isChange⟩))
  · intro receipt member r remains
    exact inPool r (.inr (.inl ⟨receipt, member, List.mem_append_right _ remains⟩))
  · intro sent member r isSent
    exact inPool r (.inr (.inr (.inl ⟨sent, member, isSent⟩)))

/-! The weight of what is in flight: a message that was accepted pays for the
broadcast, a broadcast record for the change it causes, and a change for the
message that is sent for it. -/

section

variable [Fintype ι]

def receiptWeight (clients : Nat) (receipt : Receipt) : Nat :=
  receipt.remaining.length + 1 +
    if 0 < receipt.accepted then clients * (1 + 5 * receipt.changes.length) else 0

def weight (sys : LiveWS ι) : Nat :=
  (sys.toServer.map fun changes => changes.length + 2).sum +
    (sys.receipts.map fun receipt => receiptWeight (Fintype.card ι) receipt).sum +
    (sys.toClients.map fun sent => 1 + 5 * sent.2.length).sum +
    4 * ∑ client, (sys.feeds client).length

/-- Marks that the server would still accept, then the weight. -/
def measure (pool : Finset (GoString × (HLC ×ₗ GoString))) (sys : LiveWS ι) : ℕ ×ₗ ℕ :=
  toLex ((Champion.pending Record.stamp sys.server.store.records pool).card, sys.weight)

theorem sum_length_update [DecidableEq ι] (feeds : ι → List Change) (client : ι)
    (feed : List Change) :
    ∑ i, (Function.update feeds client feed i).length + (feeds client).length =
      ∑ i, (feeds i).length + feed.length := by
  have others : ∑ i ∈ {client}ᶜ, (Function.update feeds client feed i).length =
      ∑ i ∈ {client}ᶜ, (feeds i).length := by
    refine Finset.sum_congr rfl fun i member => ?_
    rw [Function.update_of_ne (by simpa using member)]
  rw [Fintype.sum_eq_add_sum_compl client, Fintype.sum_eq_add_sum_compl client fun i =>
    (feeds i).length, others, Function.update_self]
  omega

theorem sum_message_le (sent : Option Record) :
    ((message sent).map fun changes => changes.length + 2).sum ≤ 3 := by
  unfold message
  cases sent with
  | none => exact Nat.zero_le 3
  | some r => cases encodes : r.hasJson <;> simp [encodes]

theorem sum_broadcast_le (peers : Finset ι) (changes : List Record) :
    ((broadcast peers changes).map fun sent => 1 + 5 * sent.2.length).sum ≤
      Fintype.card ι * (1 + 5 * changes.length) := by
  unfold broadcast
  split
  next =>
      rw [Multiset.map_map]
      simp only [Function.comp_def, List.length_map, Multiset.map_const', Multiset.sum_replicate,
        smul_eq_mul]
      exact Nat.mul_le_mul_right _ (Finset.card_le_univ peers)
  next => exact Nat.zero_le _

theorem length_feeds_le {feed next : List Change} {change : Option Change}
    (feeds : Feeds feed change next) : next.length ≤ feed.length + 1 := by
  rcases feeds with rfl | rfl
  · exact Nat.le_succ _
  · cases change <;> simp

variable [DecidableEq ι]

theorem weight_send (platform : Platform) {sys : LiveWS ι} {client : ι} {change : Change}
    {rest : List Change} (waiting : sys.feeds client = change :: rest) :
    (sys.send platform client change rest).weight < sys.weight := by
  have sent := sum_message_le ((sys.clients client).outgoing platform change)
  have feeds := sum_length_update sys.feeds client rest
  rw [waiting, List.length_cons] at feeds
  simp only [weight, LiveWS.send, Multiset.map_add, Multiset.sum_add]
  omega

theorem weight_ingest (platform : Platform) {sys : LiveWS ι} (env : CallEnv) {client : ι}
    {r : Record} {rest : List Record} {others : Multiset (ι × List Record)}
    {feed : List Change} (waiting : sys.toClients = (client, r :: rest) ::ₘ others)
    (feeds : Feeds (sys.feeds client) (DocDB.publishRemote platform r) feed) :
    (sys.ingest platform env client r feed ((client, rest) ::ₘ others)).weight <
      sys.weight := by
  have longer := length_feeds_le feeds
  have updated := sum_length_update sys.feeds client feed
  simp only [weight, LiveWS.ingest, setClient, waiting, Multiset.map_cons, Multiset.sum_cons,
    List.length_cons]
  omega

omit [DecidableEq ι] in
theorem weight_finish {sys : LiveWS ι} {receipt : Receipt} {others : Multiset Receipt}
    (peers : Finset ι) (waiting : sys.receipts = receipt ::ₘ others) :
    ({ sys with
      receipts := others
      toClients := (if 0 < receipt.accepted then broadcast peers receipt.changes else 0) +
        sys.toClients } : LiveWS ι).weight < sys.weight := by
  have paid := sum_broadcast_le peers receipt.changes
  simp only [weight, waiting, Multiset.map_cons, Multiset.sum_cons, Multiset.map_add,
    Multiset.sum_add, receiptWeight]
  split
  next => omega
  next => simp

/-- Every step of the exchange uses up a mark, or lowers the weight. -/
theorem measure_lt {pool : Finset (GoString × (HLC ×ₗ GoString))} {collection : ι → GoString}
    {sys next : LiveWS ι} (carries : sys.Carries (Record.InPool pool) collection)
    {platform : Platform} (step : Step platform sys .exchange next) :
    next.measure pool < sys.measure pool := by
  refine Prod.Lex.toLex_lt_toLex.mpr ?_
  cases step with
  | send client change rest waiting => exact .inr ⟨rfl, weight_send platform waiting⟩
  | receive changes others waiting =>
      refine .inr ⟨rfl, ?_⟩
      simp only [weight, waiting, Multiset.map_cons, Multiset.sum_cons, receiptWeight,
        Nat.lt_irrefl, if_false]
      omega
  | apply receipt r rest others waiting isNext =>
      have isGood := carries.remaining receipt (waiting ▸ Multiset.mem_cons_self _ _) r
        (isNext ▸ List.mem_cons_self)
      have records : (sys.apply receipt r rest others).server.store.records =
          Champion.enter Record.key Record.stamp sys.server.store.records r.defaulted :=
        sys.server.store.afterPut_records r
      rw [records]
      cases accepts : (sys.server.store.put r).1 with
      | true =>
          left
          exact Finset.card_lt_card (Champion.pending_enter_ssubset isGood.plain
            ((sys.server.store.put_accepts_iff r).mp accepts))
      | false =>
          have fewer := Finset.card_le_card (Champion.pending_enter_subset Record.key Record.stamp
            sys.server.store.records pool r.defaulted)
          refine (Nat.lt_or_eq_of_le fewer).imp_right fun same => ⟨same, ?_⟩
          simp only [weight, LiveWS.apply, accepts, waiting, Multiset.map_cons,
            Multiset.sum_cons, receiptWeight, isNext, List.length_cons, Bool.false_eq_true,
            if_false]
          omega
  | finish receipt others peers waiting applied =>
      exact .inr ⟨rfl, weight_finish peers waiting⟩
  | ingest env client r rest others feed waiting feeds =>
      exact .inr ⟨rfl, weight_ingest platform env waiting feeds⟩
  | loseToServer changes others waiting =>
      refine .inr ⟨rfl, ?_⟩
      simp only [weight, waiting, Multiset.map_cons, Multiset.sum_cons]
      omega
  | loseToClient sent others waiting =>
      refine .inr ⟨rfl, ?_⟩
      simp only [weight, waiting, Multiset.map_cons, Multiset.sum_cons]
      omega

end

end LiveWS

/-- There is no infinite exchange: from any state, with no local calls, every
sequence of steps ends. -/
theorem gossip_terminates {ι : Type} [Fintype ι] [DecidableEq ι] (platform : Platform)
    (run : ℕ → LiveWS ι) :
    ∃ n, ¬ LiveWS.Step platform (run n) .exchange (run (n + 1)) := by
  by_contra endless
  have steps := not_exists_not.mp endless
  obtain ⟨pool, carries⟩ := (run 0).exists_pool
  have carried (n : ℕ) : (run n).Carries (Record.InPool pool) fun client =>
      ((run 0).clients client).collection := by
    induction n with
    | zero => exact carries
    | succ n ih => exact ih.exchange (Record.passable_inPool pool _) (steps n)
  have stays : ∃ n, ¬ (run (n + 1)).measure pool < (run n).measure pool :=
    WellFounded.not_rel_apply_succ fun n => (run n).measure pool
  obtain ⟨n, stays⟩ := stays
  exact stays (LiveWS.measure_lt (carried n) (steps n))

end NellDB
