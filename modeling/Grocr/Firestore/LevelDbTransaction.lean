import Mathlib.Tactic.Common
import Grocr.Support.Bytes
import Grocr.Support.Cursor
/-!
# Transactions on the database on disk

A transaction collects changes and hands them over on commit.  Until then its
reads merge the changes with the rows of the database: a change shadows the row
of its key, and a deletion hides it.
-/

namespace Grocr.Firestore.Local

open Grocr.Support

/-- The database on disk, whose keys are in the order of `memcmp`.  The strings
that are the values of the rows are left open. -/
abbrev LevelDb (ν : Type) := Table Bytes ν

abbrev Row (ν : Type) := Bytes × ν

structure LevelDbTransaction (ν : Type) where
  db : LevelDb ν
  mutations : Table Bytes ν
  deletions : Table Bytes Unit
  /-- How many changes there were. -/
  version : Nat
  /-- A key is changed or deleted, and not both. -/
  disjoint : ∀ key ∈ mutations.keys, key ∉ deletions.keys

namespace LevelDbTransaction

variable {ν : Type}

def begin (db : LevelDb ν) : LevelDbTransaction ν :=
  ⟨db, Table.empty, Table.empty, 0, nofun⟩

def put (txn : LevelDbTransaction ν) (key : Bytes) (value : ν) :
    LevelDbTransaction ν where
  db := txn.db
  mutations := txn.mutations.insert key value
  deletions := txn.deletions.erase key
  version := txn.version + 1
  disjoint k hk hdeleted := by
    rw [Table.mem_keys_erase] at hdeleted
    rcases Table.mem_keys_insert.mp hk with heq | hold
    · exact hdeleted.2 heq
    · exact txn.disjoint k hold hdeleted.1

def delete (txn : LevelDbTransaction ν) (key : Bytes) : LevelDbTransaction ν where
  db := txn.db
  mutations := txn.mutations.erase key
  deletions := txn.deletions.insert key ()
  version := txn.version + 1
  disjoint k hk hdeleted := by
    rw [Table.mem_keys_erase] at hk
    rcases Table.mem_keys_insert.mp hdeleted with heq | hold
    · exact hk.2 heq
    · exact txn.disjoint k hk.1 hold

def isDeleted (txn : LevelDbTransaction ν) (key : Bytes) : Bool :=
  key ∈ txn.deletions.keys

def get (txn : LevelDbTransaction ν) (key : Bytes) : Option ν :=
  if txn.isDeleted key then none
  else
    match txn.mutations.find? key with
    | some value => some value
    | none => txn.db.find? key

def commit (txn : LevelDbTransaction ν) : LevelDb ν :=
  txn.mutations.entries.foldl (fun db e => db.insert e.1 e.2)
    (txn.deletions.keys.foldl Table.erase txn.db)

/-- An iterator over the rows of the database stands in front of those that it
has yet to pass, and so does the one over the changes. -/
structure Iterator (ν : Type) where
  dbIter : List (Row ν)
  lastVersion : Nat
  mutationsIter : List (Row ν)
  current : Row ν
  isMutation : Bool
  isValid : Bool

namespace Iterator

/-- `UpdateCurrent`: a change comes next if it is sooner, or shadows the row of
its key. -/
def updateCurrent (it : Iterator ν) : Iterator ν :=
  match it.mutationsIter, it.dbIter with
  | [], [] => { it with isValid := false }
  | [], row :: _ =>
      { it with isValid := true, isMutation := false, current := row }
  | mutation :: _, [] =>
      { it with isValid := true, isMutation := true, current := mutation }
  | mutation :: _, row :: _ =>
      if mutation.1 ≤ row.1 then
        { it with isValid := true, isMutation := true, current := mutation }
      else { it with isValid := true, isMutation := false, current := row }

def seek (txn : LevelDbTransaction ν) (it : Iterator ν) (key : Bytes) : Iterator ν :=
  updateCurrent
    { it with
      dbIter :=
        (txn.db.entriesFrom key).dropWhile (fun row => txn.isDeleted row.1)
      mutationsIter := txn.mutations.entriesFrom key
      lastVersion := txn.version }

/-- `SyncToTransaction`, with whether it moved on. -/
def syncToTransaction (txn : LevelDbTransaction ν) (it : Iterator ν) :
    Bool × Iterator ν :=
  if it.lastVersion < txn.version then
    let synced := it.seek txn it.current.1
    (synced.isValid && it.current.1 < synced.current.1, synced)
  else (false, it)

def advanceLDB (txn : LevelDbTransaction ν) (it : Iterator ν) : Iterator ν :=
  { it with
    dbIter := it.dbIter.tail.dropWhile (fun row => txn.isDeleted row.1) }

/-- The end of `Next`, in a transaction that has not changed. -/
def step (txn : LevelDbTransaction ν) (it : Iterator ν) : Iterator ν :=
  if it.isMutation then
    -- a change that shadows a row goes together with it
    let it :=
      if it.dbIter.head?.map Prod.fst = it.mutationsIter.head?.map Prod.fst then
        it.advanceLDB txn
      else it
    updateCurrent { it with mutationsIter := it.mutationsIter.tail }
  else updateCurrent (it.advanceLDB txn)

/-- `Next`, called on valid iterators only. -/
def next (txn : LevelDbTransaction ν) (it : Iterator ν) : Iterator ν :=
  let synced := it.syncToTransaction txn
  if ¬ synced.1 ∧ synced.2.isValid then synced.2.step txn else synced.2

def row? (it : Iterator ν) : Option (Row ν) :=
  if it.isValid then some it.current else none

end Iterator

def newIterator [Inhabited ν] (txn : LevelDbTransaction ν) : Iterator ν :=
  { dbIter := []
    lastVersion := txn.version
    mutationsIter := txn.mutations.entries
    current := default
    isMutation := false
    isValid := false }

/-- The rows that a loop over an iterator passes, up to its end. -/
def collect (txn : LevelDbTransaction ν) : Nat → Iterator ν → List (Row ν)
  | 0, _ => []
  | fuel + 1, it =>
      if it.isValid then it.current :: collect txn fuel (it.next txn) else []

/-- The rows from `key` on, in a loop over a new iterator; it passes every row
and every change once at most. -/
def rowsFrom [Inhabited ν] (txn : LevelDbTransaction ν) (key : Bytes) : List (Row ν) :=
  txn.collect (txn.db.entries.length + txn.mutations.entries.length + 1)
    (txn.newIterator.seek txn key)

/-- The rows that a loop from a prefix on passes while keys have the prefix. -/
def scan [Inhabited ν] (txn : LevelDbTransaction ν) (keyPrefix : Bytes) :
    List (Row ν) :=
  (txn.rowsFrom keyPrefix).takeWhile (fun row => keyPrefix <+: row.1)

end LevelDbTransaction

end Grocr.Firestore.Local
