import Mathlib.Tactic.Common
import Grocr.Support.Cursor
import Grocr.Support.Machine
import Grocr.Firestore.LevelDbTransaction
/-!
# Reads of a transaction see what it will commit

The iterators of a transaction never show a row that is not in the database
after the commit, and pass over none: whatever changes in between, the next row
is the first one behind the last.
-/

namespace Grocr.Firestore.Local

open Grocr.Support

namespace LevelDbTransaction

variable {ν : Type} {txn : LevelDbTransaction ν}

/-! ## What a transaction commits -/

theorem find?_foldl_erase (ks : List Bytes) (t : LevelDb ν) (key : Bytes) :
    (ks.foldl Table.erase t).find? key =
      if key ∈ ks then none else t.find? key := by
  induction ks generalizing t with
  | nil => simp
  | cons k ks ih =>
      rw [List.foldl_cons, ih, Table.find?_erase]
      by_cases hmem : key ∈ ks
      · simp [hmem]
      · simp [hmem]

theorem find?_foldl_insert_of_notMem {es : List (Row ν)} {key : Bytes}
    (h : key ∉ es.map Prod.fst) (t : LevelDb ν) :
    (es.foldl (fun db e => db.insert e.1 e.2) t).find? key = t.find? key := by
  induction es generalizing t with
  | nil => rfl
  | cons e es ih =>
      rw [List.map_cons, List.mem_cons, not_or] at h
      rw [List.foldl_cons, ih h.2, Table.find?_insert_of_ne _ _ h.1]

theorem find?_foldl_insert_of_mem {es : List (Row ν)} {key : Bytes} {value : ν}
    (hnodup : (es.map Prod.fst).Nodup) (h : (key, value) ∈ es) (t : LevelDb ν) :
    (es.foldl (fun db e => db.insert e.1 e.2) t).find? key = some value := by
  induction es generalizing t with
  | nil => cases h
  | cons e es ih =>
      rw [List.map_cons, List.nodup_cons] at hnodup
      rw [List.foldl_cons]
      rcases List.mem_cons.mp h with rfl | hmem
      · rw [find?_foldl_insert_of_notMem hnodup.1, Table.find?_insert_self]
      · exact ih hnodup.2 hmem _

theorem get_eq_find?_commit (txn : LevelDbTransaction ν) (key : Bytes) :
    txn.get key = txn.commit.find? key := by
  unfold get commit
  cases hmutation : txn.mutations.find? key with
  | none =>
      have hnot : key ∉ txn.mutations.keys := Table.find?_eq_none.mp hmutation
      rw [find?_foldl_insert_of_notMem hnot, find?_foldl_erase]
      simp [isDeleted]
  | some value =>
      have hkey : key ∈ txn.mutations.keys :=
        Table.mem_keys_iff_find?.mpr ⟨value, hmutation⟩
      have hnot : txn.isDeleted key = false :=
        decide_eq_false (txn.disjoint key hkey)
      rw [find?_foldl_insert_of_mem txn.mutations.nodup_keys
        (Table.find?_eq_some.mp hmutation), hnot]
      rfl

theorem mem_commit_iff {row : Row ν} :
    row ∈ txn.commit.entries ↔ row ∈ txn.mutations.entries ∨
      row ∈ txn.db.entries ∧ txn.isDeleted row.1 = false ∧
        row.1 ∉ txn.mutations.keys := by
  have hrow : row = (row.1, row.2) := rfl
  rw [hrow, ← Table.find?_eq_some, ← get_eq_find?_commit, ← Table.find?_eq_some,
    ← Table.find?_eq_some]
  unfold get
  cases hdeleted : txn.isDeleted row.1 with
  | true =>
      have hnot : txn.mutations.find? row.1 = none := by
        rw [Table.find?_eq_none]
        exact fun hkey => txn.disjoint _ hkey (of_decide_eq_true hdeleted)
      simp [hnot]
  | false =>
      cases hmutation : txn.mutations.find? row.1 with
      | none => simp [Table.find?_eq_none.mp hmutation]
      | some value =>
          have hkey : row.1 ∈ txn.mutations.keys :=
            Table.mem_keys_iff_find?.mpr ⟨value, hmutation⟩
          simp [hkey]

/-! ## Iterators -/

/-- `row` is the first row of `view` at a key that is ahead; with none, there is
no such row. -/
def IsFirst (view : LevelDb ν) (ahead : Bytes → Prop) : Option (Row ν) → Prop
  | none => ∀ e ∈ view.entries, ¬ ahead e.1
  | some row => row ∈ view.entries ∧ ahead row.1 ∧
      ∀ e ∈ view.entries, ahead e.1 → row.1 ≤ e.1

namespace Iterator

variable {it : Iterator ν} {ahead : Bytes → Prop}

/-- The iterator has the rows and the changes ahead of it, and no others. -/
structure Stands (txn : LevelDbTransaction ν) (it : Iterator ν)
    (ahead : Bytes → Prop) : Prop where
  db : Cursor txn.db.entries txn.isDeleted ahead it.dbIter
  mutations : Cursor txn.mutations.entries (fun _ => false) ahead
    it.mutationsIter
  version : it.lastVersion = txn.version
  upward : ∀ k k', ahead k → k ≤ k' → ahead k'

@[simp] theorem updateCurrent_dbIter (it : Iterator ν) :
    it.updateCurrent.dbIter = it.dbIter := by
  unfold updateCurrent
  split <;> first | rfl | (split <;> rfl)

@[simp] theorem updateCurrent_mutationsIter (it : Iterator ν) :
    it.updateCurrent.mutationsIter = it.mutationsIter := by
  unfold updateCurrent
  split <;> first | rfl | (split <;> rfl)

@[simp] theorem updateCurrent_lastVersion (it : Iterator ν) :
    it.updateCurrent.lastVersion = it.lastVersion := by
  unfold updateCurrent
  split <;> first | rfl | (split <;> rfl)

theorem Stands.updateCurrent (h : it.Stands txn ahead) :
    it.updateCurrent.Stands txn ahead where
  db := by simpa using h.db
  mutations := by simpa using h.mutations
  version := by simpa using h.version
  upward := h.upward

theorem Stands.isFirst_mutation (h : it.Stands txn ahead) {m : Row ν}
    (hm : it.mutationsIter.head? = some m)
    (hdb : ∀ row, it.dbIter.head? = some row → m.1 ≤ row.1) :
    IsFirst txn.commit ahead (some m) := by
  obtain ⟨hmem, hahead⟩ := h.mutations.head_mem hm
  refine ⟨mem_commit_iff.mpr (.inl hmem), hahead, ?_⟩
  intro e he hnext
  rcases mem_commit_iff.mp he with hchange | ⟨hrow, hnot, _⟩
  · obtain ⟨m', hm', hle⟩ :=
      h.mutations.exists_le txn.mutations.sorted hchange rfl hnext
    rw [hm] at hm'
    cases hm'
    exact hle
  · obtain ⟨row, hhead, hle⟩ := h.db.exists_le txn.db.sorted hrow hnot hnext
    exact (hdb row hhead).trans hle

theorem Stands.isFirst_row (h : it.Stands txn ahead) {row : Row ν}
    (hrow : it.dbIter.head? = some row)
    (hm : ∀ m, it.mutationsIter.head? = some m → row.1 < m.1) :
    IsFirst txn.commit ahead (some row) := by
  obtain ⟨hmem, hahead⟩ := h.db.head_mem hrow
  have hlt {e : Row ν} (he : e ∈ txn.mutations.entries) (hnext : ahead e.1) :
      row.1 < e.1 := by
    obtain ⟨m, hhead, hle⟩ :=
      h.mutations.exists_le txn.mutations.sorted he rfl hnext
    exact (hm m hhead).trans_le hle
  have hunchanged : row.1 ∉ txn.mutations.keys := by
    intro hkey
    obtain ⟨value, hvalue⟩ := Table.mem_keys.mp hkey
    exact lt_irrefl row.1 (hlt (e := (row.1, value)) hvalue hahead)
  refine ⟨mem_commit_iff.mpr (.inr ⟨hmem, h.db.head row hrow, hunchanged⟩),
    hahead, ?_⟩
  intro e he hnext
  rcases mem_commit_iff.mp he with hchange | ⟨hin, hnot, _⟩
  · exact (hlt hchange hnext).le
  · obtain ⟨row', hhead, hle⟩ := h.db.exists_le txn.db.sorted hin hnot hnext
    rw [hrow] at hhead
    cases hhead
    exact hle

theorem Stands.isFirst (h : it.Stands txn ahead) :
    IsFirst txn.commit ahead it.updateCurrent.row? := by
  unfold Iterator.updateCurrent
  split
  next hm hdb =>
    intro e he hnext
    rcases mem_commit_iff.mp he with hchange | ⟨hrow, hnot, _⟩
    · obtain ⟨m, hhead, _⟩ :=
        h.mutations.exists_le txn.mutations.sorted hchange rfl hnext
      rw [hm] at hhead
      cases hhead
    · obtain ⟨row, hhead, _⟩ := h.db.exists_le txn.db.sorted hrow hnot hnext
      rw [hdb] at hhead
      cases hhead
  next row _ hm hdb =>
    apply h.isFirst_row
    · rw [hdb]
      rfl
    · rw [hm]
      exact nofun
  next m _ hm hdb =>
    apply h.isFirst_mutation
    · rw [hm]
      rfl
    · rw [hdb]
      exact nofun
  next m _ row _ hm hdb =>
    split
    next hle =>
      apply h.isFirst_mutation
      · rw [hm]
        rfl
      · rw [hdb]
        intro row' hrow'
        cases hrow'
        exact hle
    next hlt =>
      apply h.isFirst_row
      · rw [hdb]
        rfl
      · rw [hm]
        intro m' hm'
        cases hm'
        exact not_le.mp hlt

/-- What the iterator says of itself fits where it stands. -/
def Settled (it : Iterator ν) : Prop := it.updateCurrent = it

theorem settled_updateCurrent (it : Iterator ν) : it.updateCurrent.Settled := by
  cases hm : it.mutationsIter with
  | nil => cases hdb : it.dbIter <;> simp [Settled, updateCurrent, hm, hdb]
  | cons m _ =>
      cases hdb : it.dbIter with
      | nil => simp [Settled, updateCurrent, hm, hdb]
      | cons row _ =>
          by_cases hle : m.1 ≤ row.1 <;>
            simp [Settled, updateCurrent, hm, hdb, hle]

theorem Settled.cases (h : it.Settled) (hvalid : it.isValid) :
    (it.isMutation = true ∧ it.mutationsIter.head? = some it.current ∧
        ∀ row, it.dbIter.head? = some row → it.current.1 ≤ row.1) ∨
      (it.isMutation = false ∧ it.dbIter.head? = some it.current ∧
        ∀ m, it.mutationsIter.head? = some m → it.current.1 < m.1) := by
  have hisMutation := congrArg Iterator.isMutation h
  have hcurrent := congrArg Iterator.current h
  have hisValid := congrArg Iterator.isValid h
  unfold updateCurrent at hisMutation hcurrent hisValid
  cases hm : it.mutationsIter with
  | nil =>
      cases hdb : it.dbIter with
      | nil => simp [hm, hdb, hvalid] at hisValid
      | cons row _ =>
          simp only [hm, hdb] at hisMutation hcurrent
          exact .inr ⟨hisMutation.symm, by rw [← hcurrent]; rfl, nofun⟩
  | cons m _ =>
      cases hdb : it.dbIter with
      | nil =>
          simp only [hm, hdb] at hisMutation hcurrent
          exact .inl ⟨hisMutation.symm, by rw [← hcurrent]; rfl, nofun⟩
      | cons row _ =>
          simp only [hm, hdb] at hisMutation hcurrent
          split at hcurrent
          next hle =>
            rw [if_pos hle] at hisMutation
            refine .inl ⟨hisMutation.symm, by rw [← hcurrent]; rfl, ?_⟩
            intro row' hrow'
            cases hrow'
            rwa [← hcurrent]
          next hlt =>
            rw [if_neg hlt] at hisMutation
            refine .inr ⟨hisMutation.symm, by rw [← hcurrent]; rfl, ?_⟩
            intro m' hm'
            cases hm'
            rw [← hcurrent]
            exact not_le.mp hlt

theorem Stands.advanceLDB {row : Row ν}
    (h : Cursor txn.db.entries txn.isDeleted ahead it.dbIter)
    (hrow : it.dbIter.head? = some row) :
    Cursor txn.db.entries txn.isDeleted (fun k => row.1 < k)
      (it.advanceLDB txn).dbIter := by
  cases hdb : it.dbIter with
  | nil => simp [hdb] at hrow
  | cons row' tail =>
      rw [hdb] at h hrow
      cases hrow
      have hadvance := h.advance txn.db.sorted
      rwa [Iterator.advanceLDB, hdb]

theorem Stands.step (h : it.Stands txn ahead) (hsettled : it.Settled)
    (hvalid : it.isValid) :
    (it.step txn).Settled ∧
      (it.step txn).Stands txn (fun k => it.current.1 < k) ∧
        IsFirst txn.commit (fun k => it.current.1 < k) (it.step txn).row? := by
  have hupward : ∀ k k', it.current.1 < k → k ≤ k' → it.current.1 < k' :=
    fun k k' hlt hle => hlt.trans_le hle
  have hfinish {next : Iterator ν}
      (hnext : next.Stands txn (fun k => it.current.1 < k)) :
      next.updateCurrent.Settled ∧
        next.updateCurrent.Stands txn (fun k => it.current.1 < k) ∧
          IsFirst txn.commit (fun k => it.current.1 < k)
            next.updateCurrent.row? :=
    ⟨settled_updateCurrent next, hnext.updateCurrent, hnext.isFirst⟩
  unfold Iterator.step
  rcases hsettled.cases hvalid with ⟨hkind, hm, hdb⟩ | ⟨hkind, hrow, hm⟩
  · -- the change is passed, and with it a row that it shadows
    rw [if_pos hkind]
    have hahead := (h.mutations.head_mem hm).2
    have hchanges : Cursor txn.mutations.entries (fun _ => false)
        (fun k => it.current.1 < k) it.mutationsIter.tail := by
      cases hiter : it.mutationsIter with
      | nil => simp [hiter] at hm
      | cons m tail =>
          have hcursor := h.mutations
          rw [hiter] at hm hcursor
          cases hm
          simpa using hcursor.advance txn.mutations.sorted
    rw [hm, Option.map_some]
    split
    next hshadow =>
      obtain ⟨row, hrow, hkey⟩ := Option.map_eq_some_iff.mp hshadow
      have hrows := Stands.advanceLDB h.db hrow
      rw [hkey] at hrows
      exact hfinish ⟨hrows, hchanges, h.version, hupward⟩
    next hapart =>
      have hrows := h.db.stay txn.db.sorted
        (fun row hrow => (hdb row hrow).lt_of_ne fun heq =>
          hapart (by rw [hrow, Option.map_some, heq]))
        (fun k hk => h.upward _ k hahead hk.le)
      exact hfinish ⟨hrows, hchanges, h.version, hupward⟩
  · rw [if_neg (by rw [hkind]; decide)]
    have hahead := (h.db.head_mem hrow).2
    have hchanges := h.mutations.stay txn.mutations.sorted hm
      (fun k hk => h.upward _ k hahead hk.le)
    exact hfinish
      ⟨Stands.advanceLDB h.db hrow, hchanges, h.version, hupward⟩

/-- An iterator that has been placed with `Seek` or `Next`. -/
def Placed (txn : LevelDbTransaction ν) (it : Iterator ν) : Prop :=
  it.Settled ∧ ∃ ahead, it.Stands txn ahead

theorem seek_placed (txn : LevelDbTransaction ν) (it : Iterator ν) (key : Bytes) :
    (it.seek txn key).Placed txn ∧
      IsFirst txn.commit (fun k => key ≤ k) (it.seek txn key).row? := by
  have hmutations := Cursor.seek txn.mutations (fun _ => false) key
  rw [dropWhile_false] at hmutations
  have hstands : Iterator.Stands txn
      { it with
        dbIter :=
          (txn.db.entriesFrom key).dropWhile (fun row => txn.isDeleted row.1)
        mutationsIter := txn.mutations.entriesFrom key
        lastVersion := txn.version } (fun k => key ≤ k) :=
    { db := Cursor.seek txn.db txn.isDeleted key
      mutations := hmutations
      version := rfl
      upward := fun k k' hk hle => hk.trans hle }
  exact ⟨⟨settled_updateCurrent _, _, hstands.updateCurrent⟩, hstands.isFirst⟩

theorem Placed.step (h : it.Placed txn) (hvalid : it.isValid) :
    (it.step txn).Placed txn ∧
      IsFirst txn.commit (fun k => it.current.1 < k) (it.step txn).row? := by
  obtain ⟨hsettled, ahead, hstands⟩ := h
  obtain ⟨hsettled', hstands', hfirst⟩ := hstands.step hsettled hvalid
  exact ⟨⟨hsettled', _, hstands'⟩, hfirst⟩

end Iterator

/-! ## Iterators of a transaction that changes -/

inductive Change (ν : Type)
  | put (key : Bytes) (value : ν)
  | delete (key : Bytes)

def change (txn : LevelDbTransaction ν) : Change ν → LevelDbTransaction ν
  | .put key value => txn.put key value
  | .delete key => txn.delete key

def changeAll (txn : LevelDbTransaction ν) (cs : List (Change ν)) :
    LevelDbTransaction ν :=
  cs.foldl change txn

theorem version_changeAll (txn : LevelDbTransaction ν) (cs : List (Change ν)) :
    (txn.changeAll cs).version = txn.version + cs.length := by
  induction cs generalizing txn with
  | nil => rfl
  | cons c cs ih =>
      have hchange : (txn.change c).version = txn.version + 1 := by
        cases c <;> rfl
      have hrest := ih (txn.change c)
      rw [changeAll] at hrest ⊢
      rw [List.foldl_cons, hrest, hchange, List.length_cons]
      omega

open Iterator in
/-- Whatever changes before it, `Next` leads to the first row past the current
one. -/
theorem next_isFirst {it : Iterator ν} (h : it.Placed txn) (hvalid : it.isValid)
    (cs : List (Change ν)) :
    (it.next (txn.changeAll cs)).Placed (txn.changeAll cs) ∧
      IsFirst (txn.changeAll cs).commit (fun k => it.current.1 < k)
        (it.next (txn.changeAll cs)).row? := by
  have hversion := version_changeAll txn cs
  obtain ⟨_, ahead, hstands⟩ := id h
  have hlast := hstands.version
  cases cs with
  | nil =>
      have hsame : ¬ it.lastVersion < txn.version := by omega
      have hnext : it.next txn = it.step txn := by
        simp [Iterator.next, syncToTransaction, hsame, hvalid]
      change (it.next txn).Placed txn ∧ IsFirst txn.commit _ (it.next txn).row?
      rw [hnext]
      exact h.step hvalid
  | cons c cs =>
      rw [List.length_cons] at hversion
      generalize txn.changeAll (c :: cs) = txn' at hversion ⊢
      have hchanged : it.lastVersion < txn'.version := by omega
      obtain ⟨hplaced, hfirst⟩ := seek_placed txn' it it.current.1
      have hnext : it.next txn' =
          if ¬ ((it.seek txn' it.current.1).isValid &&
              it.current.1 < (it.seek txn' it.current.1).current.1) ∧
              (it.seek txn' it.current.1).isValid then
            (it.seek txn' it.current.1).step txn'
          else it.seek txn' it.current.1 := by
        simp [Iterator.next, syncToTransaction, hchanged]
      rw [hnext]
      generalize it.seek txn' it.current.1 = synced at hplaced hfirst
      by_cases hv : synced.isValid
      · have hshown : synced.row? = some synced.current := by simp [row?, hv]
        rw [hshown] at hfirst
        obtain ⟨hmem, hle, hleast⟩ := hfirst
        by_cases hlt : it.current.1 < synced.current.1
        · -- the current row is gone, and the seek has moved on
          rw [if_neg (by simp [hv, hlt]), hshown]
          exact ⟨hplaced, hmem, hlt, fun e he hnext => hleast e he hnext.le⟩
        · have heq : synced.current.1 = it.current.1 :=
            le_antisymm (not_lt.mp hlt) hle
          rw [if_pos (by simp [hv, hlt]), ← heq]
          exact hplaced.step hv
      · have hshown : synced.row? = none := by simp [row?, hv]
        rw [hshown] at hfirst
        rw [if_neg (by simp [hv]), hshown]
        exact ⟨hplaced, fun e he hnext => hfirst e he hnext.le⟩

/-! ## A use of an iterator -/

/-- What may happen to a transaction and to one iterator over it. -/
inductive Event (ν : Type)
  | seek (key : Bytes)
  | change (c : Change ν)
  | next

def session (ν : Type) : Machine (LevelDbTransaction ν × Iterator ν) (Event ν) Empty where
  enabled s e := e = .next → s.2.isValid
  step s
    | .seek key => .ok (s.1, s.2.seek s.1 key)
    | .change c => .ok (s.1.change c, s.2)
    | .next => .ok (s.1, s.2.next s.1)

/-- The iterator has been placed, and there have been changes since. -/
def Used (s : LevelDbTransaction ν × Iterator ν) : Prop :=
  s.2.isValid → ∃ txn cs, s.2.Placed txn ∧ s.1 = txn.changeAll cs

open Iterator in
theorem used_of_run [Inhabited ν] {db : LevelDb ν} {es : List (Event ν)}
    {s : LevelDbTransaction ν × Iterator ν}
    (h : (session ν).Run (begin db, (begin db).newIterator) es s) : Used s := by
  have hplaced {txn : LevelDbTransaction ν} {it : Iterator ν}
      (hit : it.Placed txn) : Used (txn, it) :=
    fun _ => ⟨txn, [], hit, rfl⟩
  apply h.invariant
  · intro hvalid
    simp [newIterator] at hvalid
  · intro s e t hs henabled hstep
    cases e with
    | seek key =>
        cases hstep
        exact hplaced (seek_placed s.1 s.2 key).1
    | change c =>
        cases hstep
        intro hvalid
        obtain ⟨txn, cs, hit, htxn⟩ := hs hvalid
        have happend : txn.changeAll (cs ++ [c]) = s.1.change c := by
          rw [htxn, changeAll, List.foldl_append]
          rfl
        exact ⟨txn, cs ++ [c], hit, happend.symm⟩
    | next =>
        cases hstep
        obtain ⟨txn, cs, hit, htxn⟩ := hs (henabled rfl)
        have hnext := (next_isFirst hit (henabled rfl) cs).1
        rw [← htxn] at hnext
        exact hplaced hnext

/-- In every use of an iterator, whatever changes in between, `Next` leads to the
first row behind the current one that the transaction would commit. -/
theorem next_isFirst_of_run [Inhabited ν] {db : LevelDb ν} {es : List (Event ν)}
    {txn : LevelDbTransaction ν} {it : Iterator ν}
    (h : (session ν).Run (begin db, (begin db).newIterator) es (txn, it))
    (hvalid : it.isValid) :
    IsFirst txn.commit (fun k => it.current.1 < k) (it.next txn).row? := by
  obtain ⟨txn', cs, hplaced, htxn⟩ := used_of_run h hvalid
  simp only at hplaced htxn
  rw [htxn]
  exact (next_isFirst hplaced hvalid cs).2

theorem next_isFirst_of_run_apple : ∃ (txn : LevelDbTransaction Nat)
    (it : Iterator Nat),
    (session Nat).Run (begin Table.empty, (begin Table.empty).newIterator)
      [.change (.put [97] 1), .change (.put [98] 2), .seek [97],
        .change (.delete [97]), .change (.put [99] 3)] (txn, it) ∧
      IsFirst txn.commit (fun k => it.current.1 < k) (it.next txn).row? := by
  have hrun := Machine.Run.cons (M := session Nat)
    (s := (begin Table.empty, (begin Table.empty).newIterator))
    (e := .change (.put [97] 1)) (by intro h; cases h) rfl
    (.cons (e := .change (.put [98] 2)) (by intro h; cases h) rfl
      (.cons (e := .seek [97]) (by intro h; cases h) rfl
        (.cons (e := .change (.delete [97])) (by intro h; cases h) rfl
          (.cons (e := .change (.put [99] 3)) (by intro h; cases h) rfl (.nil _)))))
  exact ⟨_, _, hrun, next_isFirst_of_run hrun (by decide)⟩

/-! ## A loop over the rows -/

theorem filter_eq_cons {view : LevelDb ν} {ahead : Bytes → Prop}
    [DecidablePred ahead] {row : Row ν} (h : IsFirst view ahead (some row))
    (hupward : ∀ k, row.1 < k → ahead k) :
    view.entries.filter (fun e => ahead e.1) =
      row :: view.entries.filter (fun e => row.1 < e.1) := by
  obtain ⟨hmem, hahead, hleast⟩ := h
  have hsorted := view.sorted
  apply eq_of_increasing Prod.fst
  · exact hsorted.filter _
  · refine List.pairwise_cons.mpr ⟨?_, hsorted.filter _⟩
    intro e he
    simpa using (List.mem_filter.mp he).2
  · intro e
    simp only [List.mem_filter, List.mem_cons, decide_eq_true_eq]
    constructor
    · intro ⟨he, hnext⟩
      rcases (hleast e he hnext).lt_or_eq with hlt | heq
      · exact .inr ⟨he, hlt⟩
      · left
        have hvalue : row.2 = e.2 := by
          refine Table.entry_unique (t := view) (k := row.1) hmem ?_
          rw [heq]
          exact he
        exact Prod.ext heq.symm hvalue.symm
    · rintro (rfl | ⟨he, hlt⟩)
      · exact ⟨hmem, hahead⟩
      · exact ⟨he, hupward e.1 hlt⟩

open Iterator in
theorem collect_eq (fuel : Nat) {it : Iterator ν} {ahead : Bytes → Prop}
    [DecidablePred ahead] (hplaced : it.Placed txn)
    (hfirst : IsFirst txn.commit ahead it.row?)
    (hupward : ∀ k k', ahead k → k ≤ k' → ahead k')
    (hfuel : (txn.commit.entries.filter (fun e => ahead e.1)).length ≤ fuel) :
    txn.collect fuel it = txn.commit.entries.filter (fun e => ahead e.1) := by
  induction fuel generalizing it ahead with
  | zero => rw [collect, List.length_eq_zero_iff.mp (Nat.le_zero.mp hfuel)]
  | succ fuel ih =>
      rw [collect]
      by_cases hvalid : it.isValid
      · have hshown : it.row? = some it.current := by simp [row?, hvalid]
        rw [hshown] at hfirst
        have hcons := filter_eq_cons hfirst
          (fun k hk => hupward _ k hfirst.2.1 hk.le)
        obtain ⟨hnext, hfirst'⟩ := next_isFirst hplaced hvalid []
        rw [hcons, List.length_cons] at hfuel
        rw [if_pos hvalid, hcons]
        exact congrArg (it.current :: ·) (ih hnext hfirst'
          (fun k k' hk hle => hk.trans_le hle)
          (Nat.le_of_succ_le_succ hfuel))
      · have hshown : it.row? = none := by simp [row?, hvalid]
        rw [hshown] at hfirst
        rw [if_neg hvalid, List.filter_eq_nil_iff.mpr]
        intro e he hnext
        exact hfirst e he (of_decide_eq_true hnext)

theorem length_commit_le (txn : LevelDbTransaction ν) :
    txn.commit.entries.length ≤
      txn.db.entries.length + txn.mutations.entries.length := by
  have hsubset : txn.commit.keys ⊆ txn.db.keys ++ txn.mutations.keys := by
    intro key hkey
    obtain ⟨value, hvalue⟩ := Table.mem_keys.mp hkey
    rw [List.mem_append]
    rcases mem_commit_iff.mp hvalue with hchange | ⟨hrow, _, _⟩
    · exact .inr (List.mem_map_of_mem hchange)
    · exact .inl (List.mem_map_of_mem hrow)
  have hlength := (txn.commit.nodup_keys.subperm hsubset).length_le
  simpa [Table.keys] using hlength

/-- A loop from `key` on passes the rows that the transaction would commit, in
their order. -/
theorem rowsFrom_eq [Inhabited ν] (txn : LevelDbTransaction ν) (key : Bytes) :
    txn.rowsFrom key = txn.commit.entries.filter (fun e => key ≤ e.1) := by
  obtain ⟨hplaced, hfirst⟩ := Iterator.seek_placed txn txn.newIterator key
  have hlength := txn.length_commit_le
  refine collect_eq _ hplaced hfirst (fun k k' hk hle => hk.trans hle)
    ((List.length_filter_le _ _).trans ?_)
  omega

end LevelDbTransaction

end Grocr.Firestore.Local
