import Mathlib.Data.Sigma.Order
import Mathlib.Tactic.Common
import Grocr.Proofs.LevelDbKey
/-!
# The rows of all tables in one order

A key is a list of components, each a label and what the label announces.  The
keys on disk are in the order of these lists: by table first, then field by
field, and what lies under a path after the other rows of the path.
-/

namespace Grocr.Firestore.Local

open Grocr.Support Grocr.Support.Lexicographic
open Grocr.Firestore.Util.OrderedCode

/-! ## Components -/

instance : LinearOrder ComponentLabel :=
  LinearOrder.lift' ComponentLabel.value fun a b h => by
    cases a <;> cases b <;> first | rfl | exact absurd h (by decide)

theorem ComponentLabel.lt_iff {a b : ComponentLabel} :
    a < b ↔ a.value < b.value := Iff.rfl

abbrev Number := { val : Int // InInt64 val }

instance numberOrder : LinearOrder Number :=
  @Subtype.instLinearOrder Int Int.instLinearOrder InInt64

abbrev Payload : ComponentLabel → Type
  | .terminator => Unit
  | .tableName => Bytes
  | .batchId => Number
  | .canonicalId => Bytes
  | .targetId => Number
  | .userId => Bytes
  | .collectionId => Bytes
  | .documentId => Bytes
  | .snapshotVersion => Number ×ₗ Number
  | .pathSegment => Bytes
  | .unknown => Unit

instance : ∀ label, LinearOrder (Payload label)
  | .terminator => PUnit.instLinearOrder
  | .tableName => List.instLinearOrder
  | .batchId => numberOrder
  | .canonicalId => List.instLinearOrder
  | .targetId => numberOrder
  | .userId => List.instLinearOrder
  | .collectionId => List.instLinearOrder
  | .documentId => List.instLinearOrder
  | .snapshotVersion => Prod.Lex.instLinearOrder Number Number
  | .pathSegment => List.instLinearOrder
  | .unknown => PUnit.instLinearOrder

def writeNumber (n : Number) : Bytes := writeSignedNumIncreasing n.1

def writePayload : (label : ComponentLabel) → Payload label → Bytes
  | .terminator, _ => []
  | .tableName, s => writeString s
  | .batchId, n => writeNumber n
  | .canonicalId, s => writeString s
  | .targetId, n => writeNumber n
  | .userId, s => writeString s
  | .collectionId, s => writeString s
  | .documentId, s => writeString s
  | .snapshotVersion, v => writeNumber (ofLex v).1 ++ writeNumber (ofLex v).2
  | .pathSegment, s => writeString s
  | .unknown, _ => []

/-- Components are ordered by the label, then by what it announces. -/
def Component := Σₗ label, Payload label

instance : LinearOrder Component :=
  inferInstanceAs (LinearOrder (Σₗ label, Payload label))

def Component.mk (label : ComponentLabel) (payload : Payload label) :
    Component :=
  toLex ⟨label, payload⟩

def writeComponent (c : Component) : Bytes :=
  writeComponentLabel c.1 ++ writePayload c.1 c.2

theorem writeComponentLabel_ordered : OrderedCode writeComponentLabel :=
  fun a b h => writeSigned_before (componentLabel_inInt64 a)
    (componentLabel_inInt64 b) h

theorem writeNumber_ordered : OrderedCode writeNumber :=
  fun a b h => writeSigned_before a.2 b.2 h

/-- What is read off the front of two byte strings is in their order, and where
it is the same, so is what follows it. -/
theorem lt_iff_of_readBytes {x y s t rest rest' : Bytes}
    (hx : readBytes x = .ok (s, rest)) (hy : readBytes y = .ok (t, rest')) :
    x < y ↔ s < t ∨ s = t ∧ rest < rest' := by
  rw [readBytes_iff.mp hx, readBytes_iff.mp hy]
  exact writeString_ordered.append_lt_append_iff

theorem lt_iff_of_readBytes_apple :
    ([97, 0, 1, 5] : Bytes) < [98, 0, 0xff, 0, 1] := by
  have hx : readBytes [97, 0, 1, 5] = .ok ([97], [5]) :=
    readBytes_iff.mpr (by rw [writeString_eq]; rfl)
  have hy : readBytes [98, 0, 0xff, 0, 1] = .ok ([98, 0], []) :=
    readBytes_iff.mpr (by rw [writeString_eq]; rfl)
  exact (lt_iff_of_readBytes hx hy).mpr (.inl (by decide))

theorem lt_iff_of_readInt64 {x y rest rest' : Bytes} {a b : Int}
    (hx : readInt64 x = .ok (a, rest)) (hy : readInt64 y = .ok (b, rest')) :
    x < y ↔ a < b ∨ a = b ∧ rest < rest' := by
  obtain ⟨ha, hxa⟩ := readInt64_iff.mp hx
  obtain ⟨hb, hyb⟩ := readInt64_iff.mp hy
  have horder := writeNumber_ordered.append_lt_append_iff (x := ⟨a, ha⟩)
    (y := ⟨b, hb⟩) (r := rest) (s := rest')
  rw [Subtype.mk.injEq] at horder
  rw [hxa, hyb]
  exact horder

theorem lt_iff_of_readInt64_apple : ([0x3f, 0x38] : Bytes) < [0x81] := by
  have hx : readInt64 [0x3f, 0x38] = .ok (-200, []) :=
    readInt64_iff.mpr ⟨by unfold InInt64; decide, by decide⟩
  have hy : readInt64 [0x81] = .ok (1, []) :=
    readInt64_iff.mpr ⟨by unfold InInt64; decide, by decide⟩
  exact (lt_iff_of_readInt64 hx hy).mpr (.inl (by decide))

theorem writePayload_ordered (label : ComponentLabel) :
    OrderedCode (writePayload label) := by
  have hunit (f : Unit → Bytes) : OrderedCode f :=
    fun a b h => absurd h (lt_irrefl _)
  cases label with
  | terminator => exact hunit _
  | unknown => exact hunit _
  | batchId => exact writeNumber_ordered
  | targetId => exact writeNumber_ordered
  | snapshotVersion => exact writeNumber_ordered.pair writeNumber_ordered
  | tableName => exact writeString_ordered
  | canonicalId => exact writeString_ordered
  | userId => exact writeString_ordered
  | collectionId => exact writeString_ordered
  | documentId => exact writeString_ordered
  | pathSegment => exact writeString_ordered

theorem writeComponent_ordered : OrderedCode writeComponent :=
  writeComponentLabel_ordered.sigma writePayload_ordered

theorem writeComponent_ne_nil (c : Component) : writeComponent c ≠ [] := by
  simp [writeComponent, writeComponentLabel_ne_nil]

/-! ## Rows -/

inductive DbTable
  | version
  | mutations
  | documentMutations
  | mutationQueues
  | targetGlobal
  | targets
  | queryTargets
  | targetDocuments
  | documentTargets
  | remoteDocuments
  | collectionParents
  | remoteDocumentReadTime
deriving DecidableEq

namespace DbTable

def name : DbTable → Bytes
  | version => kVersionGlobalTable
  | mutations => kMutationsTable
  | documentMutations => kDocumentMutationsTable
  | mutationQueues => kMutationQueuesTable
  | targetGlobal => kTargetGlobalTable
  | targets => kTargetsTable
  | queryTargets => kQueryTargetsTable
  | targetDocuments => kTargetDocumentsTable
  | documentTargets => kDocumentTargetsTable
  | remoteDocuments => kRemoteDocumentsTable
  | collectionParents => kCollectionParentsTable
  | remoteDocumentReadTime => kRemoteDocumentReadTimeTable

theorem name_injective : Function.Injective name := by
  intro a b
  cases a <;> cases b <;> first | exact fun _ => rfl | exact fun h => absurd h (by decide)

end DbTable

abbrev Number32 := { val : Int // InInt32 val }

abbrev DocumentPath := { path : List Bytes // IsDocumentKey path }

/-- What the rows of the tables are for. -/
inductive RowKey
  | version
  | mutation (userId : Bytes) (batchId : Number32)
  | documentMutation (userId : Bytes) (documentKey : DocumentPath)
      (batchId : Number32)
  | mutationQueue (userId : Bytes)
  | targetGlobal
  | target (targetId : Number32)
  | queryTarget (canonicalId : Bytes) (targetId : Number32)
  | targetDocument (targetId : Number32) (documentKey : DocumentPath)
  | documentTarget (documentKey : DocumentPath) (targetId : Number32)
  | remoteDocument (documentKey : DocumentPath)
  | collectionParent (collectionId : Bytes) (parent : List Bytes)
  | remoteDocumentReadTime (collectionPath : List Bytes)
      (readTime : { v : Int × Int // ValidateBounds v.1 v.2 })
      (documentId : Bytes)

namespace RowKey

def key : RowKey → Bytes
  | version => LevelDbVersionKey.key
  | mutation u b => LevelDbMutationKey.key u b.1
  | documentMutation u d b => LevelDbDocumentMutationKey.key u d.1 b.1
  | mutationQueue u => LevelDbMutationQueueKey.key u
  | targetGlobal => LevelDbTargetGlobalKey.key
  | target t => LevelDbTargetKey.key t.1
  | queryTarget c t => LevelDbQueryTargetKey.key c t.1
  | targetDocument t d => LevelDbTargetDocumentKey.key t.1 d.1
  | documentTarget d t => LevelDbDocumentTargetKey.key d.1 t.1
  | remoteDocument d => LevelDbRemoteDocumentKey.key d.1
  | collectionParent c p => LevelDbCollectionParentKey.key c p
  | remoteDocumentReadTime p v d =>
      LevelDbRemoteDocumentReadTimeKey.key p v.1 d

def table : RowKey → DbTable
  | version => .version
  | mutation _ _ => .mutations
  | documentMutation _ _ _ => .documentMutations
  | mutationQueue _ => .mutationQueues
  | targetGlobal => .targetGlobal
  | target _ => .targets
  | queryTarget _ _ => .queryTargets
  | targetDocument _ _ => .targetDocuments
  | documentTarget _ _ => .documentTargets
  | remoteDocument _ => .remoteDocuments
  | collectionParent _ _ => .collectionParents
  | remoteDocumentReadTime _ _ _ => .remoteDocumentReadTime

end RowKey

/-! ## `Decode` -/

abbrev DbTable.Fields : DbTable → Type
  | version => Unit
  | mutations => Bytes × Int
  | documentMutations => Bytes × List Bytes × Int
  | mutationQueues => Bytes
  | targetGlobal => Unit
  | targets => Int
  | queryTargets => Bytes × Int
  | targetDocuments => Int × List Bytes
  | documentTargets => List Bytes × Int
  | remoteDocuments => List Bytes
  | collectionParents => Bytes × List Bytes
  | remoteDocumentReadTime => List Bytes × (Int × Int) × Bytes

/-- The reader behind `Decode`; the key of the version has none. -/
def DbTable.reader : (table : DbTable) → Reader table.Fields
  | version => fail
  | mutations => LevelDbMutationKey.reader
  | documentMutations => LevelDbDocumentMutationKey.reader
  | mutationQueues => LevelDbMutationQueueKey.reader
  | targetGlobal => LevelDbTargetGlobalKey.reader
  | targets => LevelDbTargetKey.reader
  | queryTargets => LevelDbQueryTargetKey.reader
  | targetDocuments => LevelDbTargetDocumentKey.reader
  | documentTargets => LevelDbDocumentTargetKey.reader
  | remoteDocuments => LevelDbRemoteDocumentKey.reader
  | collectionParents => LevelDbCollectionParentKey.reader
  | remoteDocumentReadTime => LevelDbRemoteDocumentReadTimeKey.reader

namespace RowKey

/-- The fields that the key of a row is written from. -/
def fields : (r : RowKey) → r.table.Fields
  | version => ()
  | mutation u b => (u, b.1)
  | documentMutation u d b => (u, d.1, b.1)
  | mutationQueue u => u
  | targetGlobal => ()
  | target t => t.1
  | queryTarget c t => (c, t.1)
  | targetDocument t d => (t.1, d.1)
  | documentTarget d t => (d.1, t.1)
  | remoteDocument d => d.1
  | collectionParent c p => (c, p)
  | remoteDocumentReadTime p v d => (p, v.1, d)

theorem read_key (r : RowKey) (h : r ≠ version) (rest : Bytes) :
    r.table.reader (r.key ++ rest) = .ok (r.fields, rest) := by
  cases r with
  | version => exact absurd rfl h
  | mutation u b => exact LevelDbMutationKey.reader_iff.mpr ⟨b.2, rfl⟩
  | documentMutation u d b =>
      exact LevelDbDocumentMutationKey.reader_iff.mpr ⟨⟨d.2, b.2⟩, rfl⟩
  | mutationQueue u => exact LevelDbMutationQueueKey.reader_iff.mpr rfl
  | targetGlobal => exact LevelDbTargetGlobalKey.reader_iff.mpr rfl
  | target t => exact LevelDbTargetKey.reader_iff.mpr ⟨t.2, rfl⟩
  | queryTarget c t => exact LevelDbQueryTargetKey.reader_iff.mpr ⟨t.2, rfl⟩
  | targetDocument t d =>
      exact LevelDbTargetDocumentKey.reader_iff.mpr ⟨⟨t.2, d.2⟩, rfl⟩
  | documentTarget d t =>
      exact LevelDbDocumentTargetKey.reader_iff.mpr ⟨⟨d.2, t.2⟩, rfl⟩
  | remoteDocument d => exact LevelDbRemoteDocumentKey.reader_iff.mpr ⟨d.2, rfl⟩
  | collectionParent c p => exact LevelDbCollectionParentKey.reader_iff.mpr rfl
  | remoteDocumentReadTime p v d =>
      exact LevelDbRemoteDocumentReadTimeKey.reader_iff.mpr ⟨v.2, rfl⟩

/-- What a reader accepts is the key of a row of its table. -/
theorem exists_row {table : DbTable} {bytes rest : Bytes} {fields : table.Fields}
    (h : table.reader bytes = .ok (fields, rest)) :
    ∃ r : RowKey, r ≠ version ∧ bytes = r.key ++ rest ∧
      (⟨r.table, r.fields⟩ : Sigma DbTable.Fields) = ⟨table, fields⟩ := by
  cases table with
  | version => exact absurd h fail_ne_ok
  | mutations =>
      obtain ⟨hb, hkey⟩ := LevelDbMutationKey.reader_iff.mp h
      exact ⟨mutation fields.1 ⟨fields.2, hb⟩, nofun, hkey, rfl⟩
  | documentMutations =>
      obtain ⟨⟨hd, hb⟩, hkey⟩ := LevelDbDocumentMutationKey.reader_iff.mp h
      exact ⟨documentMutation fields.1 ⟨fields.2.1, hd⟩ ⟨fields.2.2, hb⟩, nofun,
        hkey, rfl⟩
  | mutationQueues =>
      exact ⟨mutationQueue fields, nofun,
        LevelDbMutationQueueKey.reader_iff.mp h, rfl⟩
  | targetGlobal =>
      exact ⟨targetGlobal, nofun, LevelDbTargetGlobalKey.reader_iff.mp h, rfl⟩
  | targets =>
      obtain ⟨ht, hkey⟩ := LevelDbTargetKey.reader_iff.mp h
      exact ⟨target ⟨fields, ht⟩, nofun, hkey, rfl⟩
  | queryTargets =>
      obtain ⟨ht, hkey⟩ := LevelDbQueryTargetKey.reader_iff.mp h
      exact ⟨queryTarget fields.1 ⟨fields.2, ht⟩, nofun, hkey, rfl⟩
  | targetDocuments =>
      obtain ⟨⟨ht, hd⟩, hkey⟩ := LevelDbTargetDocumentKey.reader_iff.mp h
      exact ⟨targetDocument ⟨fields.1, ht⟩ ⟨fields.2, hd⟩, nofun, hkey, rfl⟩
  | documentTargets =>
      obtain ⟨⟨hd, ht⟩, hkey⟩ := LevelDbDocumentTargetKey.reader_iff.mp h
      exact ⟨documentTarget ⟨fields.1, hd⟩ ⟨fields.2, ht⟩, nofun, hkey, rfl⟩
  | remoteDocuments =>
      obtain ⟨hd, hkey⟩ := LevelDbRemoteDocumentKey.reader_iff.mp h
      exact ⟨remoteDocument ⟨fields, hd⟩, nofun, hkey, rfl⟩
  | collectionParents =>
      exact ⟨collectionParent fields.1 fields.2, nofun,
        LevelDbCollectionParentKey.reader_iff.mp h, rfl⟩
  | remoteDocumentReadTime =>
      obtain ⟨hv, hkey⟩ := LevelDbRemoteDocumentReadTimeKey.reader_iff.mp h
      exact ⟨remoteDocumentReadTime fields.1 ⟨fields.2.1, hv⟩ fields.2.2, nofun,
        hkey, rfl⟩

/-- Every `Decode` finds the fields of the key that a byte string starts with,
and finds nothing else. -/
theorem decodeWith_iff (table : DbTable) {bytes : Bytes}
    {fields : table.Fields} :
    decodeWith table.reader bytes = .ok fields ↔
      ∃ r : RowKey, r ≠ version ∧ r.key <+: bytes ∧
        (⟨r.table, r.fields⟩ : Sigma DbTable.Fields) = ⟨table, fields⟩ := by
  unfold decodeWith
  rw [Checked.map_eq_ok]
  constructor
  · rintro ⟨⟨fields', rest⟩, hread, rfl⟩
    obtain ⟨r, hr, hkey, heq⟩ := exists_row hread
    exact ⟨r, hr, ⟨rest, hkey.symm⟩, heq⟩
  · rintro ⟨r, hr, ⟨rest, rfl⟩, heq⟩
    cases heq
    exact ⟨(r.fields, rest), r.read_key hr rest, rfl⟩

/-! ## The components of a key -/

def tableComponent (table : DbTable) : Component := .mk .tableName table.name

def userComponent (userId : Bytes) : Component := .mk .userId userId

def batchComponent (batchId : Number32) : Component :=
  .mk .batchId ⟨batchId.1, batchId.2.inInt64⟩

def targetComponent (targetId : Number32) : Component :=
  .mk .targetId ⟨targetId.1, targetId.2.inInt64⟩

def canonicalComponent (canonicalId : Bytes) : Component :=
  .mk .canonicalId canonicalId

def collectionComponent (collectionId : Bytes) : Component :=
  .mk .collectionId collectionId

def documentComponent (documentId : Bytes) : Component :=
  .mk .documentId documentId

def versionComponent (v : { v : Int × Int // ValidateBounds v.1 v.2 }) :
    Component :=
  .mk .snapshotVersion (toLex
    (⟨v.1.1, by have h := v.2; unfold ValidateBounds at h; unfold InInt64; omega⟩,
      ⟨v.1.2, by have h := v.2; unfold ValidateBounds at h; unfold InInt64; omega⟩))

def pathComponents (path : List Bytes) : List Component :=
  path.map (.mk .pathSegment)

def terminatorComponent : Component := .mk .terminator ()

def components : RowKey → List Component
  | version => [tableComponent .version]
  | mutation u b =>
      [tableComponent .mutations, userComponent u, batchComponent b]
  | documentMutation u d b =>
      tableComponent .documentMutations :: userComponent u ::
        (pathComponents d.1 ++ [batchComponent b])
  | mutationQueue u => [tableComponent .mutationQueues, userComponent u]
  | targetGlobal => [tableComponent .targetGlobal]
  | target t => [tableComponent .targets, targetComponent t]
  | queryTarget c t =>
      [tableComponent .queryTargets, canonicalComponent c, targetComponent t]
  | targetDocument t d =>
      tableComponent .targetDocuments :: targetComponent t ::
        pathComponents d.1
  | documentTarget d t =>
      tableComponent .documentTargets ::
        (pathComponents d.1 ++ [targetComponent t])
  | remoteDocument d =>
      tableComponent .remoteDocuments :: pathComponents d.1
  | collectionParent c p =>
      tableComponent .collectionParents :: collectionComponent c ::
        pathComponents p
  | remoteDocumentReadTime p v d =>
      tableComponent .remoteDocumentReadTime ::
        (pathComponents p ++ [versionComponent v, documentComponent d])

section

@[simp] theorem write_mk (label : ComponentLabel) (payload : Payload label) :
    writeComponent (.mk label payload) =
      writeComponentLabel label ++ writePayload label payload := rfl

@[simp] theorem write_table (table : DbTable) :
    writeComponent (tableComponent table) = writeTableName table.name := by
  rw [tableComponent, write_mk, writePayload, writeTableName,
    writeLabeledString]

@[simp] theorem write_user (u : Bytes) :
    writeComponent (userComponent u) = writeUserId u := by
  rw [userComponent, write_mk, writePayload, writeUserId, writeLabeledString]

@[simp] theorem write_batch (b : Number32) :
    writeComponent (batchComponent b) = writeBatchId b.1 := by
  rw [batchComponent, write_mk, writePayload, writeBatchId, writeLabeledInt32,
    writeNumber]

@[simp] theorem write_target (t : Number32) :
    writeComponent (targetComponent t) = writeTargetId t.1 := by
  rw [targetComponent, write_mk, writePayload, writeTargetId,
    writeLabeledInt32, writeNumber]

@[simp] theorem write_canonical (c : Bytes) :
    writeComponent (canonicalComponent c) = writeCanonicalId c := by
  rw [canonicalComponent, write_mk, writePayload, writeCanonicalId,
    writeLabeledString]

@[simp] theorem write_collection (c : Bytes) :
    writeComponent (collectionComponent c) = writeCollectionId c := by
  rw [collectionComponent, write_mk, writePayload, writeCollectionId,
    writeLabeledString]

@[simp] theorem write_document (d : Bytes) :
    writeComponent (documentComponent d) = writeDocumentId d := by
  rw [documentComponent, write_mk, writePayload, writeDocumentId,
    writeLabeledString]

@[simp] theorem write_version (v : { v : Int × Int // ValidateBounds v.1 v.2 }) :
    writeComponent (versionComponent v) = writeSnapshotVersion v.1 := by
  rw [versionComponent, write_mk, writePayload, writeSnapshotVersion,
    writeNumber, writeNumber, ofLex_toLex]

@[simp] theorem write_terminator :
    writeComponent terminatorComponent = writeTerminator := by
  rw [terminatorComponent, write_mk, writePayload, writeTerminator,
    List.append_nil]

@[simp] theorem write_path (path : List Bytes) :
    (pathComponents path).flatMap writeComponent = writeResourcePath path := by
  have hsegment (s : Bytes) : writeComponent (.mk .pathSegment s) =
      writeLabeledString .pathSegment s := by
    rw [write_mk, writePayload, writeLabeledString]
  rw [pathComponents, List.flatMap_map, writeResourcePath]
  exact congrArg (List.flatMap · path) (funext hsegment)

end

open DbTable in
theorem key_eq (r : RowKey) :
    r.key = (r.components ++ [terminatorComponent]).flatMap writeComponent := by
  cases r with
  | version => simp [key, components, name, LevelDbVersionKey.key]
  | mutation u b => simp [key, components, name, LevelDbMutationKey.key]
  | documentMutation u d b =>
      simp [key, components, name, LevelDbDocumentMutationKey.key]
  | mutationQueue u => simp [key, components, name, LevelDbMutationQueueKey.key]
  | targetGlobal => simp [key, components, name, LevelDbTargetGlobalKey.key]
  | target t => simp [key, components, name, LevelDbTargetKey.key]
  | queryTarget c t =>
      simp [key, components, name, LevelDbQueryTargetKey.key]
  | targetDocument t d =>
      simp [key, components, name, LevelDbTargetDocumentKey.key]
  | documentTarget d t =>
      simp [key, components, name, LevelDbDocumentTargetKey.key]
  | remoteDocument d => simp [key, components, name, LevelDbRemoteDocumentKey.key]
  | collectionParent c p =>
      simp [key, components, name, LevelDbCollectionParentKey.key]
  | remoteDocumentReadTime p v d =>
      simp [key, components, name, LevelDbRemoteDocumentReadTimeKey.key]

theorem terminator_lt {label : ComponentLabel} (h : label ≠ .terminator)
    (payload : Payload label) :
    terminatorComponent < Component.mk label payload := by
  apply Sigma.Lex.left
  rw [ComponentLabel.lt_iff]
  cases label <;> first | exact absurd rfl h | decide

theorem terminator_lt_of_mem (r : RowKey) :
    ∀ c ∈ r.components, terminatorComponent < c := by
  have hsegment (s : Bytes) : terminatorComponent < Component.mk .pathSegment s :=
    terminator_lt (by decide) _
  have htable (table : DbTable) : terminatorComponent < tableComponent table :=
    terminator_lt (by decide) _
  have huser (u : Bytes) : terminatorComponent < userComponent u :=
    terminator_lt (by decide) _
  have hbatch (b : Number32) : terminatorComponent < batchComponent b :=
    terminator_lt (by decide) _
  have htarget (t : Number32) : terminatorComponent < targetComponent t :=
    terminator_lt (by decide) _
  have hversion (v : { v : Int × Int // ValidateBounds v.1 v.2 }) :
      terminatorComponent < versionComponent v :=
    terminator_lt (by decide) _
  have hcanonical (c : Bytes) :
      terminatorComponent < canonicalComponent c :=
    terminator_lt (by decide) _
  have hcollection (c : Bytes) :
      terminatorComponent < collectionComponent c :=
    terminator_lt (by decide) _
  have hdocument (c : Bytes) :
      terminatorComponent < documentComponent c :=
    terminator_lt (by decide) _
  cases r <;> simp only [components, pathComponents, List.forall_mem_cons,
    List.forall_mem_append, List.forall_mem_map, htable, huser, hbatch, htarget,
    hversion, hcanonical, hcollection, hdocument, hsegment, List.not_mem_nil,
    false_implies, implies_true, and_self]

/-- The keys on disk are in the order of their components. -/
theorem key_lt_iff (r s : RowKey) :
    r.key < s.key ↔ r.components < s.components := by
  rw [key_eq, key_eq, writeComponent_ordered.flatMap_lt_iff writeComponent_ne_nil,
    append_singleton_lt_iff r.terminator_lt_of_mem s.terminator_lt_of_mem]

/-! ## Keys and prefixes -/

theorem mk_inj {label : ComponentLabel} {a b : Payload label} :
    Component.mk label a = Component.mk label b ↔ a = b := by
  constructor
  · intro h
    exact eq_of_heq (Sigma.mk.inj h).2
  · rintro rfl
    rfl

theorem mk_lt_mk {label : ComponentLabel} {a b : Payload label} :
    Component.mk label a < Component.mk label b ↔ a < b := by
  constructor
  · intro h
    cases h with
    | left _ _ hlt => exact absurd hlt (lt_irrefl _)
    | right _ _ hlt => exact hlt
  · exact fun h => Sigma.Lex.right _ _ h

@[simp] theorem tableComponent_inj {a b : DbTable} :
    tableComponent a = tableComponent b ↔ a = b :=
  mk_inj.trans DbTable.name_injective.eq_iff

@[simp] theorem userComponent_inj {a b : Bytes} :
    userComponent a = userComponent b ↔ a = b := mk_inj

@[simp] theorem batchComponent_inj {a b : Number32} :
    batchComponent a = batchComponent b ↔ a = b := by
  rw [batchComponent, batchComponent, mk_inj, Subtype.mk.injEq, Subtype.ext_iff]

@[simp] theorem targetComponent_inj {a b : Number32} :
    targetComponent a = targetComponent b ↔ a = b := by
  rw [targetComponent, targetComponent, mk_inj, Subtype.mk.injEq,
    Subtype.ext_iff]

@[simp] theorem canonicalComponent_inj {a b : Bytes} :
    canonicalComponent a = canonicalComponent b ↔ a = b := mk_inj

@[simp] theorem collectionComponent_inj {a b : Bytes} :
    collectionComponent a = collectionComponent b ↔ a = b := mk_inj

@[simp] theorem documentComponent_inj {a b : Bytes} :
    documentComponent a = documentComponent b ↔ a = b := mk_inj

@[simp] theorem versionComponent_inj
    {a b : { v : Int × Int // ValidateBounds v.1 v.2 }} :
    versionComponent a = versionComponent b ↔ a = b := by
  rw [versionComponent, versionComponent, mk_inj, toLex_inj, Prod.mk.injEq,
    Subtype.mk.injEq, Subtype.mk.injEq, Subtype.ext_iff, Prod.ext_iff]

@[simp] theorem pathComponents_inj {a b : List Bytes} :
    pathComponents a = pathComponents b ↔ a = b := by
  have hinjective : Function.Injective (Component.mk .pathSegment) :=
    fun _ _ h => mk_inj.mp h
  rw [pathComponents, pathComponents]
  exact (List.map_injective_iff.mpr hinjective).eq_iff

theorem components_injective : Function.Injective components := by
  intro r s h
  cases r <;> cases s <;> simp [components, ← Subtype.ext_iff] at h
  case remoteDocumentReadTime =>
    obtain ⟨hpath, hrest⟩ := List.append_inj' h rfl
    simp at hpath hrest
    simp [hpath, hrest]
  all_goals simp [h]

theorem key_prefix_iff (r s : RowKey) : r.key <+: s.key ↔ r = s := by
  have hnotMem : terminatorComponent ∉ s.components :=
    fun hmem => lt_irrefl _ (s.terminator_lt_of_mem _ hmem)
  rw [key_eq, key_eq,
    writeComponent_ordered.flatMap_prefix_iff writeComponent_ne_nil,
    append_singleton_prefix_iff hnotMem, components_injective.eq_iff]

theorem key_injective : Function.Injective key := by
  intro r s h
  rw [← key_prefix_iff, h]

/-! ## The order of the rows -/

theorem component_lt_of_label {label label' : ComponentLabel}
    (h : label < label') (a : Payload label) (b : Payload label') :
    Component.mk label a < Component.mk label' b := Sigma.Lex.left _ _ h

@[simp] theorem userComponent_lt {a b : Bytes} :
    userComponent a < userComponent b ↔ a < b := mk_lt_mk

@[simp] theorem batchComponent_lt {a b : Number32} :
    batchComponent a < batchComponent b ↔ a < b := mk_lt_mk

theorem mutation_lt_iff {u v : Bytes} {a b : Number32} :
    (mutation u a).key < (mutation v b).key ↔ u < v ∨ u = v ∧ a < b := by
  rw [key_lt_iff]
  simp [components, List.cons_lt_cons_iff]

theorem mutation_le_iff {u : Bytes} {a b : Number32} :
    (mutation u a).key ≤ (mutation u b).key ↔ a.1 ≤ b.1 := by
  rw [← not_lt, mutation_lt_iff]
  simp

/-- Segments of a path sort after the component that ends it. -/
theorem pathComponents_append_lt_iff {p q : List Bytes} {a b : Number32} :
    pathComponents p ++ [batchComponent a] <
        pathComponents q ++ [batchComponent b] ↔
      p < q ∨ p = q ∧ a < b := by
  have hbatch (a : Number32) (s : Bytes) :
      batchComponent a < Component.mk .pathSegment s :=
    component_lt_of_label (by rw [ComponentLabel.lt_iff]; decide) _ _
  induction p generalizing q with
  | nil =>
      cases q with
      | nil => simp [pathComponents, List.cons_lt_cons_iff]
      | cons s q =>
          have hlt := hbatch a s
          simp [pathComponents, List.cons_lt_cons_iff, hlt]
  | cons s p ih =>
      cases q with
      | nil =>
          have hlt := hbatch b s
          simp [pathComponents, List.cons_lt_cons_iff, hlt.not_gt, hlt.ne']
      | cons t q =>
          have hstep : pathComponents (s :: p) ++ [batchComponent a] <
              pathComponents (t :: q) ++ [batchComponent b] ↔
                s < t ∨ s = t ∧ pathComponents p ++ [batchComponent a] <
                  pathComponents q ++ [batchComponent b] := by
            simp [pathComponents, List.cons_lt_cons_iff, mk_lt_mk, mk_inj]
          have htail : pathComponents p ++ [batchComponent a] <
              pathComponents q ++ [batchComponent b] ↔ p < q ∨ p = q ∧ a < b := ih
          rw [hstep, htail, List.cons_lt_cons_iff, List.cons.injEq]
          tauto

/-- The rows of one document stand together, in the order of the batches, before
the rows of what lies under it. -/
theorem documentMutation_lt_iff {u v : Bytes} {d e : DocumentPath}
    {a b : Number32} :
    (documentMutation u d a).key < (documentMutation v e b).key ↔
      u < v ∨ u = v ∧ (d.1 < e.1 ∨ d = e ∧ a < b) := by
  rw [key_lt_iff]
  simp [components, List.cons_lt_cons_iff, pathComponents_append_lt_iff,
    Subtype.ext_iff]

/-! ## The rows under a prefix -/

theorem flatMap_prefix_key_iff {prefixComponents : List Component} (r : RowKey) :
    prefixComponents.flatMap writeComponent <+: r.key ↔
      prefixComponents <+: r.components ++ [terminatorComponent] := by
  rw [key_eq, writeComponent_ordered.flatMap_prefix_iff writeComponent_ne_nil]

theorem mutationPrefix_iff {u : Bytes} {r : RowKey} :
    LevelDbMutationKey.keyPrefixOfUser u <+: r.key ↔ ∃ b, r = mutation u b := by
  have hcomponents : LevelDbMutationKey.keyPrefixOfUser u =
      [tableComponent .mutations, userComponent u].flatMap writeComponent := by
    simp [LevelDbMutationKey.keyPrefixOfUser, DbTable.name]
  rw [hcomponents, flatMap_prefix_key_iff]
  cases r <;> simp [components, List.cons_prefix_cons, eq_comm]

theorem mutationTable_iff {r : RowKey} :
    LevelDbMutationKey.keyPrefix <+: r.key ↔ ∃ u b, r = mutation u b := by
  have hcomponents : LevelDbMutationKey.keyPrefix =
      [tableComponent .mutations].flatMap writeComponent := by
    simp [LevelDbMutationKey.keyPrefix, DbTable.name]
  rw [hcomponents, flatMap_prefix_key_iff]
  cases r <;> simp [components, List.cons_prefix_cons]

theorem pathComponents_prefix_iff {p d : List Bytes} {a : Number32} :
    pathComponents p <+:
        pathComponents d ++ [batchComponent a, terminatorComponent] ↔
      p <+: d := by
  have hne (a : Number32) (s : Bytes) :
      Component.mk .pathSegment s ≠ batchComponent a :=
    (component_lt_of_label (by rw [ComponentLabel.lt_iff]; decide) _ _).ne'
  induction p generalizing d with
  | nil => simp [pathComponents]
  | cons s p ih =>
      cases d with
      | nil => simp [pathComponents, List.cons_prefix_cons, hne]
      | cons t d =>
          have hstep : pathComponents (s :: p) <+: pathComponents (t :: d) ++
              [batchComponent a, terminatorComponent] ↔
                s = t ∧ pathComponents p <+: pathComponents d ++
                  [batchComponent a, terminatorComponent] := by
            simp [pathComponents, List.cons_prefix_cons, mk_inj]
          have htail : pathComponents p <+: pathComponents d ++
              [batchComponent a, terminatorComponent] ↔ p <+: d := ih
          rw [hstep, htail, List.cons_prefix_cons]

theorem documentMutationPrefix_iff {u : Bytes} {p : List Bytes} {r : RowKey} :
    LevelDbDocumentMutationKey.keyPrefixOfPath u p <+: r.key ↔
      ∃ d b, r = documentMutation u d b ∧ p <+: d.1 := by
  have hcomponents : LevelDbDocumentMutationKey.keyPrefixOfPath u p =
      (tableComponent .documentMutations :: userComponent u ::
        pathComponents p).flatMap writeComponent := by
    simp [LevelDbDocumentMutationKey.keyPrefixOfPath, DbTable.name]
  rw [hcomponents, flatMap_prefix_key_iff]
  cases r <;> simp [components, List.cons_prefix_cons]
  case documentMutation v d b =>
    rw [pathComponents_prefix_iff, eq_comm]

/-! ## Reading the key of a row -/

/-- Of the keys of rows, `Decode` of a table accepts those of its own rows and
returns the fields they are written from. -/
theorem decode_key_iff (table : DbTable) (s : RowKey) :
    ((∃ fields, decodeWith table.reader s.key = .ok fields) ↔
        s ≠ version ∧ s.table = table) ∧
      ∀ fields, decodeWith table.reader s.key = .ok fields →
        (⟨s.table, s.fields⟩ : Sigma DbTable.Fields) = ⟨table, fields⟩ := by
  have hfields (fields : table.Fields) :
      decodeWith table.reader s.key = .ok fields ↔ s ≠ version ∧
        (⟨s.table, s.fields⟩ : Sigma DbTable.Fields) = ⟨table, fields⟩ := by
    rw [decodeWith_iff]
    constructor
    · rintro ⟨r, hr, hprefix, heq⟩
      rw [key_prefix_iff] at hprefix
      exact hprefix ▸ ⟨hr, heq⟩
    · rintro ⟨hs, heq⟩
      exact ⟨s, hs, List.prefix_rfl, heq⟩
  refine ⟨⟨?_, ?_⟩, fun fields h => ((hfields fields).mp h).2⟩
  · rintro ⟨fields, h⟩
    obtain ⟨hs, heq⟩ := (hfields fields).mp h
    exact ⟨hs, congrArg Sigma.fst heq⟩
  · rintro ⟨hs, rfl⟩
    exact ⟨s.fields, (hfields _).mpr ⟨hs, rfl⟩⟩

theorem exists_key_eq (r : RowKey) :
    ∃ tail, r.key = writeTableName r.table.name ++ tail := by
  have htable : ∃ cs, r.components = tableComponent r.table :: cs := by
    cases r <;> exact ⟨_, rfl⟩
  obtain ⟨cs, hcs⟩ := htable
  rw [key_eq, hcs, List.cons_append, List.flatMap_cons, write_table]
  exact ⟨_, rfl⟩

theorem decode_mutation (u : Bytes) (b : Number32) :
    decodeWith LevelDbMutationKey.reader (mutation u b).key = .ok (u, b.1) :=
  (decodeWith_iff .mutations).mpr
    ⟨mutation u b, nofun, List.prefix_rfl, rfl⟩

theorem decode_documentMutation (u : Bytes) (d : DocumentPath) (b : Number32) :
    decodeWith LevelDbDocumentMutationKey.reader (documentMutation u d b).key =
      .ok (u, d.1, b.1) :=
  (decodeWith_iff .documentMutations).mpr
    ⟨documentMutation u d b, nofun, List.prefix_rfl, rfl⟩

theorem decode_mutation_of_table {r : RowKey} (h : r.table ≠ .mutations) :
    decodeWith LevelDbMutationKey.reader r.key = .error .failed := by
  obtain ⟨tail, htail⟩ := r.exists_key_eq
  have hname : r.table.name ≠ kMutationsTable :=
    fun heq => h (DbTable.name_injective heq)
  have hread : LevelDbMutationKey.reader r.key = .error .failed := by
    rw [LevelDbMutationKey.reader, htail]
    exact readerBind_eq_error (readTableNameMatching_of_ne hname tail)
  rw [decodeWith, hread]
  rfl

end RowKey

end Grocr.Firestore.Local
