import NellDB.Data.Interleaving
import NellDB.Server.Push
import NellDB.Server.Reconcile

namespace NellDB

open Data

/-! Two servers that receive pushes; the second reconciles with the first. -/

structure Mesh where
  a : Server
  b : Server

inductive MeshAction where
  | pushA (r : Record)
  | pushB (r : Record)
  | reconcile (final : Server)

namespace Mesh

/-- Pushes are applied record by record, so those of several requests may
interleave. -/
inductive Step : Mesh → MeshAction → Mesh → Prop
  | pushA : Step mesh (.pushA r) { mesh with a := mesh.a.ingest r }
  | pushB : Step mesh (.pushB r) { mesh with b := mesh.b.ingest r }
  | reconcile (returned : ReconcilesNil mesh.a.store mesh.b final) :
      Step mesh (.reconcile final) { mesh with b := final }

def new (nodeA nodeB : GoString) (nowA nowB : Int64) : Mesh where
  a := newServer (newMemoryStore nodeA nowA) nodeA
  b := newServer (newMemoryStore nodeB nowB) nodeB

/-- The record is one of the default collection of the store, or takes a key
that is listed there. -/
def Lists (store : MemoryStore) (r : Record) : Prop :=
  r.defaulted.collection = defaultCollection ∨
    ∃ keys, store.colIndex.lookup defaultCollection = some keys ∧
      r.defaulted.key ∈ keys

/-- What reaches the vector of the second server without the record it stands
for: nothing, when pushes arrive like this. -/
def InOrder (writes : Record → Prop) (mesh : Mesh) : MeshAction → Prop
  | .pushA r => writes r ∧ r.defaulted.ValidText ∧
      (Lists mesh.a.store r → Watermark.Reached mesh.b.kv r.updatedBy r.clock →
        mesh.b.store.Covers r.defaulted)
  | .pushB r => writes r ∧ r.defaulted.ValidText ∧
      ∀ q ∈ mesh.a.store.listAll defaultCollection,
        q.updatedBy = r.updatedBy → q.clock ≤ r.clock →
          q = r.defaulted ∨ mesh.b.store.Covers q
  | .reconcile _ => CursorAdvances mesh.a.store mesh.b.kv

def IdentifiedWrites (writes : Record → Prop) : Prop :=
  ∀ first second, writes first → writes second →
    first.updatedBy = second.updatedBy → first.clock = second.clock →
      first.defaulted = second.defaulted

def Stores (writes : Record → Prop) (store : MemoryStore) : Prop :=
  ∀ position stored, store.records.lookup position = some stored →
    ∃ r, writes r ∧ r.defaulted.ValidText ∧ r.defaulted = stored

structure Sound (writes : Record → Prop) (mesh : Mesh) : Prop where
  wellFormed : WellFormed mesh.a.store
  storesA : Stores writes mesh.a.store
  storesB : Stores writes mesh.b.store
  validKv : mesh.b.kv.ValidText
  reached : ∀ q ∈ mesh.a.store.listAll defaultCollection,
    Watermark.Reached mesh.b.kv q.updatedBy q.clock → mesh.b.store.Covers q

end Mesh

theorem mem_listAll_afterPut {s : MemoryStore} (wellFormed : WellFormed s)
    {r q : Record} (member : q ∈ (s.afterPut r).listAll defaultCollection) :
    q ∈ s.listAll defaultCollection ∨ q = r.defaulted ∧ Mesh.Lists s r := by
  rcases listAll_afterPut_source wellFormed member with before | ⟨rfl, listed⟩
  · exact .inl before
  · exact .inr ⟨rfl, listed⟩

namespace Mesh

theorem Stores.afterPut {writes : Record → Prop} {store : MemoryStore}
    (stores : Stores writes store) {r : Record} (written : writes r)
    (valid : r.defaulted.ValidText) : Stores writes (store.afterPut r) := by
  intro position stored found
  rw [MemoryStore.afterPut_records] at found
  rcases Champion.lookup_enter_source found with before | ⟨rfl, _⟩
  · exact stores position stored before
  · exact ⟨r, written, valid, rfl⟩

theorem Stores.putAll {writes : Record → Prop} {store : MemoryStore}
    (stores : Stores writes store) {records : List Record}
    (written : ∀ q ∈ records, ∃ r, writes r ∧ r.defaulted.ValidText ∧ r.defaulted = q) :
    Stores writes (store.putAll records) := by
  intro position stored found
  rcases MemoryStore.lookup_putAll_source found with before | ⟨q, member, rfl, _⟩
  · exact stores position stored before
  · obtain ⟨r, isWrite, valid, rfl⟩ := written q member
    exact ⟨r, isWrite, valid, by simp⟩

namespace Sound

theorem exists_write {writes : Record → Prop} {mesh : Mesh} (sound : Sound writes mesh)
    {q : Record} (member : q ∈ mesh.a.store.listAll defaultCollection) :
    ∃ r, writes r ∧ r.defaulted.ValidText ∧ r.defaulted = q := by
  obtain ⟨_, _, _, found⟩ := (mem_listAll_iff sound.wellFormed _ q).mp member
  exact sound.storesA q.key q found

theorem validText {writes : Record → Prop} {mesh : Mesh} (sound : Sound writes mesh)
    {q : Record} (member : q ∈ mesh.a.store.listAll defaultCollection) : q.ValidText := by
  obtain ⟨r, _, valid, rfl⟩ := sound.exists_write member
  exact valid

theorem distinct {writes : Record → Prop} {mesh : Mesh} (sound : Sound writes mesh)
    (identified : IdentifiedWrites writes) :
    DistinctWrites (· ∈ mesh.a.store.listAll defaultCollection) := by
  intro first second firstMember secondMember sameWriter sameClock
  obtain ⟨left, leftWritten, _, rfl⟩ := sound.exists_write firstMember
  obtain ⟨right, rightWritten, _, rfl⟩ := sound.exists_write secondMember
  exact identified left right leftWritten rightWritten sameWriter sameClock

theorem stampsAgree {writes : Record → Prop} {mesh : Mesh} (sound : Sound writes mesh)
    (identified : IdentifiedWrites writes) : StampsAgree mesh.a.store mesh.b := by
  intro r member held found sameWriter sameClock
  obtain ⟨left, leftWritten, _, rfl⟩ := sound.storesB r.key held found
  obtain ⟨right, rightWritten, _, rfl⟩ := sound.exists_write member
  exact identified left right leftWritten rightWritten sameWriter sameClock

theorem pushA {writes : Record → Prop} {mesh : Mesh} (sound : Sound writes mesh)
    {r : Record} (allows : InOrder writes mesh (.pushA r)) :
    Sound writes { mesh with a := mesh.a.ingest r } := by
  obtain ⟨written, valid, notAhead⟩ := allows
  refine ⟨sound.wellFormed.afterPut r, sound.storesA.afterPut written valid,
    sound.storesB, sound.validKv, ?_⟩
  intro q member seen
  rcases mem_listAll_afterPut sound.wellFormed member with before | ⟨rfl, lists⟩
  · exact sound.reached q before seen
  · exact notAhead lists seen

theorem pushB {writes : Record → Prop} {mesh : Mesh} (sound : Sound writes mesh)
    {r : Record} (allows : InOrder writes mesh (.pushB r)) :
    Sound writes { mesh with b := mesh.b.ingest r } := by
  obtain ⟨written, valid, complete⟩ := allows
  refine ⟨sound.wellFormed, sound.storesA, sound.storesB.afterPut written valid,
    sound.validKv.update valid.updatedBy r.clock, ?_⟩
  intro q member seen
  have reached : Watermark.Reached mesh.b.kv q.updatedBy q.clock ∨
      q.updatedBy = r.updatedBy ∧ q.clock ≤ r.clock := by
    rw [← Watermark.reached_raise_iff, ← KnowledgeVector.update_eq_raise]
    exact seen
  rcases reached with before | ⟨sameWriter, below⟩
  · exact (sound.reached q member before).afterPut r
  · rcases complete q member sameWriter below with rfl | covers
    · exact MemoryStore.covers_afterPut mesh.b.store r
    · exact covers.afterPut r

theorem reconcile {writes : Record → Prop} {mesh : Mesh} (sound : Sound writes mesh)
    (identified : IdentifiedWrites writes) {final : Server}
    (advances : CursorAdvances mesh.a.store mesh.b.kv)
    (returned : ReconcilesNil mesh.a.store mesh.b final) :
    (∀ q ∈ mesh.a.store.listAll defaultCollection, final.store.Covers q) ∧
      Sound writes { mesh with b := final } := by
  obtain ⟨all, rfl, fromPeer, covers⟩ := returned.covers sound.wellFormed
    (sound.distinct identified)
    (pageable_of_valid (fun q member => sound.validText member) sound.validKv advances)
    (by
      rw [KnowledgeVector.overJson_of_valid sound.validKv]
      exact sound.reached)
  refine ⟨covers, sound.wellFormed, sound.storesA, ?_, ?_, fun q member _ => covers q member⟩
  · rw [Server.ingestAll_store]
    exact sound.storesB.putAll fun q inAll => sound.exists_write (fromPeer q inAll)
  · exact Server.validText_ingestAll sound.validKv fun q inAll =>
      (sound.validText (fromPeer q inAll)).updatedBy

end Sound

theorem sound_of_run {writes : Record → Prop} (identified : IdentifiedWrites writes)
    {nodeA nodeB : GoString} {nowA nowB : Int64} {mesh : Mesh}
    (run : Run Step (InOrder writes) (new nodeA nodeB nowA nowB) mesh) : Sound writes mesh := by
  induction run with
  | start =>
      refine ⟨wellFormed_newMemoryStore nodeA nowA, ?_, ?_, ?_, ?_⟩
      · intro position stored found
        simp [new, newServer, newMemoryStore] at found
      · intro position stored found
        simp [new, newServer, newMemoryStore] at found
      · intro nodeID clock found
        simp [new, newServer, newMemoryStore] at found
      · rintro q _ ⟨mark, found, _⟩
        simp [new, newServer, newMemoryStore] at found
  | step _ allows step ih =>
      cases step with
      | pushA => exact ih.pushA allows
      | pushB => exact ih.pushB allows
      | reconcile returned => exact (ih.reconcile identified allows returned).2

end Mesh

/-- When no push lets the second server's vector run ahead of the records it
holds, every reconciliation that returns nil is complete. -/
theorem mesh_reconcile_complete (writes : Record → Prop)
    (identified : Mesh.IdentifiedWrites writes)
    (nodeA nodeB : GoString) (nowA nowB : Int64) (mesh : Mesh)
    (run : Run Mesh.Step (Mesh.InOrder writes) (Mesh.new nodeA nodeB nowA nowB) mesh)
    (few : (missingFrom mesh.a.store mesh.b.kv).card < 100) (final : Server)
    (returned : ReconcilesNil mesh.a.store mesh.b final) :
    ∀ r ∈ mesh.a.store.listAll defaultCollection, final.store.HoldsOrBeats r := by
  have sound := Mesh.sound_of_run identified run
  obtain ⟨covers, after⟩ :=
    sound.reconcile identified (cursorAdvances_of_few few.le) returned
  intro r member
  exact (covers r member).holdsOrBeats (after.stampsAgree identified r member)

theorem mesh_reconcile_complete_two_pushes :
    let first : Record := { Record.zero with
      collection := defaultCollection, id := ascii ['x'], clock := ⟨1, 0⟩
      updatedBy := ascii ['w'] }
    let second : Record := { Record.zero with
      collection := defaultCollection, id := ascii ['y'], clock := ⟨2, 0⟩
      updatedBy := ascii ['w'] }
    let mesh := Mesh.new (ascii ['a']) (ascii ['b']) 0 0
    let a := (mesh.a.ingest first).ingest second
    ∀ r ∈ a.store.listAll defaultCollection,
      (mesh.b.ingestAll [first, second]).store.HoldsOrBeats r := by
  intro first second mesh a
  let writes : Record → Prop := (· ∈ [first, second])
  have unseen : mesh.b.kv = ∅ := rfl
  have unreached : ∀ nodeID clock, ¬ Watermark.Reached mesh.b.kv nodeID clock := by
    rintro nodeID clock ⟨mark, found, _⟩
    simp [unseen] at found
  have allowsFirst : Mesh.InOrder writes mesh (.pushA first) :=
    ⟨by simp [writes], by decide, fun _ seen => absurd seen (unreached _ _)⟩
  have allowsSecond : Mesh.InOrder writes ⟨mesh.a.ingest first, mesh.b⟩ (.pushA second) :=
    ⟨by simp [writes], by decide, fun _ seen => absurd seen (unreached _ _)⟩
  have run : Run Mesh.Step (Mesh.InOrder writes) mesh ⟨a, mesh.b⟩ :=
    .step (.step .start allowsFirst .pushA) allowsSecond .pushA
  have listed : a.store.listAll defaultCollection = [first, second] := by
    have all : ∀ r ∈ [first, second], r.collection = defaultCollection := by decide
    exact listAll_putAll_new (by decide) all (by decide) (ascii ['a']) 0
  have identified : Mesh.IdentifiedWrites writes := by
    have apart : ∀ left ∈ [first, second], ∀ right ∈ [first, second],
        left.clock = right.clock → left.defaulted = right.defaulted := by decide
    intro left right leftWritten rightWritten _ sameClock
    exact apart left leftWritten right rightWritten sameClock
  have few : (missingFrom a.store mesh.b.kv).card < 100 := by
    have bound := Multiset.card_le_card
      (Multiset.filter_le (fun r => Server.unseen mesh.b.kv r = true)
        (a.store.listAll defaultCollection))
    rw [listed] at bound
    rw [missingFrom, listed]
    exact bound.trans_lt (by decide)
  have validKv : mesh.b.kv.ValidText := by
    intro nodeID clock found
    simp [unseen] at found
  have order : ClockOrder [first, second] (a.store.listAll defaultCollection) :=
    ⟨listed.symm, by decide⟩
  have returned : ReconcilesNil a.store mesh.b (mesh.b.ingestAll [first, second]) :=
    reconcilesNil_of_reply order validKv (by decide) (by decide) (by decide)
  exact mesh_reconcile_complete writes identified _ _ 0 0 ⟨a, mesh.b⟩ run few _ returned

/-- The later record of a writer is pushed to the second server and the
earlier one to the first; the vector then hides the earlier one. -/
theorem mesh_reconcile_misses_record :
    let earlier : Record := { Record.zero with
      collection := defaultCollection, id := ascii ['x'], clock := ⟨1, 0⟩
      updatedBy := ascii ['w'] }
    let later : Record := { Record.zero with
      collection := defaultCollection, id := ascii ['y'], clock := ⟨2, 0⟩
      updatedBy := ascii ['w'] }
    let start := Mesh.new (ascii ['a']) (ascii ['b']) 0 0
    let mesh : Mesh := ⟨start.a.ingest earlier, start.b.ingest later⟩
    Run Mesh.Step (fun _ _ => True) start mesh ∧
      (missingFrom mesh.a.store mesh.b.kv).card < 100 ∧
      ∃ final, ReconcilesNil mesh.a.store mesh.b final ∧
        earlier ∈ mesh.a.store.listAll defaultCollection ∧
        ¬ final.store.HoldsOrBeats earlier := by
  intro earlier later start mesh
  have run : Run Mesh.Step (fun _ _ => True) start mesh :=
    .step (.step .start trivial .pushB) trivial .pushA
  have listed : mesh.a.store.listAll defaultCollection = [earlier] := by
    have all : ∀ r ∈ [earlier], r.collection = defaultCollection := by decide
    exact listAll_putAll_new (by decide) all (by decide) (ascii ['a']) 0
  have seen : Server.unseen mesh.b.kv earlier = false := by decide
  have validKv : mesh.b.kv.ValidText := by
    have valid : start.b.kv.ValidText := by
      intro nodeID clock found
      simp [start, Mesh.new, newServer, newMemoryStore] at found
    exact valid.update (by decide) later.clock
  have order : ClockOrder [earlier] (mesh.a.store.listAll defaultCollection) :=
    ⟨listed.symm, by decide⟩
  have returned := reconcilesNil_of_reply order validKv (by decide) (by decide) (by decide)
  refine ⟨run, ?_, _, returned, by simp [listed], ?_⟩
  · rw [missingFrom, listed, Multiset.filter_coe]
    simp [seen]
  · rintro ⟨held, found, _⟩
    have absent : (mesh.b.ingestAll (([earlier].filter
        (Server.unseen mesh.b.kv)).take 100)).store.records.lookup earlier.key = none := by
      decide
    rw [absent] at found
    contradiction

end NellDB
