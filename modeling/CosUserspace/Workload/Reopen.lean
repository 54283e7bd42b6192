import CosUserspace.Workload.Database
import Mathlib.Logic.Relation

/-!
# The database after a restart

The files of the database outlive the process. The constructor of `Database` opens what it finds, or removes it if it cannot be opened, and then puts every entry again, whether or not it is there. So it does not matter when the processes before were stopped, or which of their puts had reached the files: once `Fill` is through, the database holds exactly its entries.
-/

namespace CosUserspace

namespace Workload

namespace Database

/-- What the constructor uses of the file system and of `rocksdb::DB::Open`. -/
structure Storage (S : KeyValueStore Bytes Bytes) where
  Files : Type
  /-- `rocksdb::DB::Open`: the database if the status is ok, and the files afterwards -/
  dbOpen : Files → Option S.Db × Files
  /-- `std::filesystem::exists` -/
  pathExists : Files → Bool
  /-- `std::filesystem::remove_all`: whether it returns, and the files afterwards -/
  removeAll : Files → Bool × Files
  /-- the files that a process may leave, however it ends, when its database has been each of these -/
  left : (S.Db → Prop) → Files → Prop

/-- Why the constructor has no database to fill. -/
inductive OpenStop
  /-- `assert(std::filesystem::exists(path))` -/
  | pathExists
  /-- `std::filesystem::remove_all(path)` throws -/
  | removeAll
  /-- `assert(OpenDatabase(path))` -/
  | openDatabase
  deriving DecidableEq, Repr

section

variable {S : KeyValueStore Bytes Bytes} (F : Storage S)

/-- The constructor up to `Fill`. -/
def openOrRemove (files : F.Files) : Except OpenStop S.Db × F.Files :=
  match F.dbOpen files with
  | (some db, files) => (.ok db, files)
  | (none, files) =>
    if F.pathExists files then
      match F.removeAll files with
      | (true, files) =>
        match F.dbOpen files with
        | (some db, files) => (.ok db, files)
        | (none, files) => (.error .openDatabase, files)
      | (false, files) => (.error .removeAll, files)
    else (.error .pathExists, files)

/-- The databases on the way of `Fill` from `db` on, up to the put number `n`. -/
def Written (S : KeyValueStore Bytes Bytes) (db : S.Db) (n : ℕ) (d : S.Db) : Prop :=
  ∃ m ≤ n, ∃ ok, fillFrom S m 0 db = .ok (ok, d)

/-- What a process makes of the files, from its start to its end. -/
inductive Life : F.Files → F.Files → Prop
  /-- the constructor has no database to fill -/
  | unopened {files files' : F.Files} {stop : OpenStop} : openOrRemove F files = (.error stop, files') →
      Life files files'
  /-- the process ends or is stopped after `n` puts -/
  | filling {files files' opened : F.Files} {db : S.Db} (n : ℕ) : openOrRemove F files = (.ok db, opened) →
      n ≤ kNumEntries.toNat → F.left (Written S db n) files' → Life files files'

variable {F}

/-- The files hold the entries of the database. What a process leaves is the database as it was at some point in time. -/
structure Storage.Durable (F : Storage S) (R : S.OrderedMap) where
  entries : F.Files → Bytes → Option Bytes
  open_ok : ∀ {f f' db}, F.dbOpen f = (some db, f') → R.contents db = entries f
  open_failed : ∀ {f f'}, F.dbOpen f = (none, f') → ∀ k v, entries f' k = some v → entries f k = some v
  removeAll_ok : ∀ {f f'}, F.removeAll f = (true, f') → ∀ k, entries f' k = none
  removeAll_failed : ∀ {f f'}, F.removeAll f = (false, f') → ∀ k v, entries f' k = some v → entries f k = some v
  put_failed : ∀ {k v d}, (S.put k v d).1 = false → ∀ k' v', R.contents (S.put k v d).2 k' = some v' →
    R.contents d k' = some v' ∨ k' = k ∧ v' = v
  left_point : ∀ {written f}, F.left written f → ∃ d, written d ∧ entries f = R.contents d

/-- No entry but those of the database. -/
abbrev Own (m : Bytes → Option Bytes) : Prop := Covering keyOf valueOf kNumEntries.toNat 0 m

variable {R : S.OrderedMap}

theorem keyOf_strictMonoOn_entries : StrictMonoOn keyOf (Set.Iio kNumEntries.toNat) :=
  fun _ ha _ hb => keyOf_strictMonoOn (Nat.lt_trans ha (by decide)) (Nat.lt_trans hb (by decide))

/-- The puts of `Fill` add the entries from `i` on, and nothing else. -/
theorem fillFrom_covering {left : ℕ} {i : UInt32} {db db' : S.Db} {ok : Bool} (D : F.Durable R)
    (hcovering : Covering keyOf valueOf kNumEntries.toNat i.toNat (R.contents db))
    (hbound : i.toNat + left ≤ kNumEntries.toNat) (hfill : fillFrom S left i db = .ok (ok, db')) :
    Own (R.contents db') ∧
      (ok = true → Covering keyOf valueOf kNumEntries.toNat (i.toNat + left) (R.contents db')) := by
  have hnum : kNumEntries.toNat = 1000000 := rfl
  induction left generalizing i db with
  | zero =>
    obtain ⟨-, rfl⟩ := Prod.mk.inj (Except.ok.inj hfill)
    exact ⟨hcovering.lose fun _ _ => id, fun _ => hcovering⟩
  | succ left ih =>
    have hlt : i.toNat < kNumEntries.toNat := by omega
    rw [fillFrom_succ] at hfill
    split at hfill
    · rename_i hput
      have hnext : (i + 1).toNat = i.toNat + 1 := toNat_succ (by omega)
      have hone : Covering keyOf valueOf kNumEntries.toNat (i + 1).toNat
          (R.contents (S.put (keyOf i.toNat) (valueOf i.toNat) db).2) := by
        rw [hnext, R.put_contents hput]
        exact hcovering.put keyOf_strictMonoOn_entries hlt
      have hrest := ih hone (by omega) hfill
      rwa [hnext, Nat.add_assoc, Nat.add_comm 1] at hrest
    · rename_i hput
      obtain ⟨rfl, rfl⟩ := Prod.mk.inj (Except.ok.inj hfill)
      exact ⟨hcovering.weaken hlt (D.put_failed (Bool.eq_false_iff.mpr hput)), fun h => by cases h⟩

/-- What the constructor opens, and what it leaves when it opens nothing, has no entry that is not one of the database. -/
theorem openOrRemove_own (D : F.Durable R) {files files' : F.Files} {opened : Except OpenStop S.Db}
    (hown : Own (D.entries files)) (hopen : openOrRemove F files = (opened, files')) :
    (∀ stop, opened = .error stop → Own (D.entries files')) ∧ ∀ db, opened = .ok db → Own (R.contents db) := by
  have hdb : ∀ {f f' : F.Files} {db : S.Db}, Own (D.entries f) → F.dbOpen f = (some db, f') → Own (R.contents db) := by
    intro f f' db hf hok
    rw [D.open_ok hok]
    exact hf
  unfold openOrRemove at hopen
  split at hopen
  · rename_i db f hok
    obtain ⟨rfl, rfl⟩ := Prod.mk.inj hopen
    refine ⟨fun _ h => (by cases h), fun db' h => ?_⟩
    obtain rfl := Except.ok.inj h
    exact hdb hown hok
  · rename_i f hfailed
    have hf : Own (D.entries f) := hown.lose (D.open_failed hfailed)
    split at hopen
    · split at hopen
      · rename_i f₁ hremoved
        have hf₁ : Own (D.entries f₁) := .empty (D.removeAll_ok hremoved)
        split at hopen
        · rename_i db f₂ hok
          obtain ⟨rfl, rfl⟩ := Prod.mk.inj hopen
          refine ⟨fun _ h => (by cases h), fun db' h => ?_⟩
          obtain rfl := Except.ok.inj h
          exact hdb hf₁ hok
        · rename_i f₂ hagain
          obtain ⟨rfl, rfl⟩ := Prod.mk.inj hopen
          exact ⟨fun _ _ => hf₁.lose (D.open_failed hagain), fun db h => by cases h⟩
      · rename_i f₁ hthrown
        obtain ⟨rfl, rfl⟩ := Prod.mk.inj hopen
        exact ⟨fun _ _ => hf.lose (D.removeAll_failed hthrown), fun db h => by cases h⟩
    · obtain ⟨rfl, rfl⟩ := Prod.mk.inj hopen
      exact ⟨fun _ _ => hf, fun db h => by cases h⟩

theorem fill_covering (D : F.Durable R) {db db' : S.Db} {ok : Bool} {n : ℕ} (hown : Own (R.contents db))
    (hn : n ≤ kNumEntries.toNat) (hfill : fillFrom S n 0 db = .ok (ok, db')) :
    Own (R.contents db') ∧ (ok = true → Covering keyOf valueOf kNumEntries.toNat n (R.contents db')) := by
  have hzero : (0 : UInt32).toNat = 0 := rfl
  have hstart : Covering keyOf valueOf kNumEntries.toNat (0 : UInt32).toNat (R.contents db) := hown
  have hfilled := fillFrom_covering D hstart (by rwa [hzero, Nat.zero_add]) hfill
  rwa [hzero, Nat.zero_add] at hfilled

/-- A process leaves no entry that is not one of the database. -/
theorem Life.own (D : F.Durable R) {files files' : F.Files} (hlife : Life F files files')
    (hown : Own (D.entries files)) : Own (D.entries files') := by
  cases hlife with
  | unopened hopen => exact (openOrRemove_own D hown hopen).1 _ rfl
  | filling n hopen hn hleft =>
    obtain ⟨d, ⟨m, hm, ok, hfill⟩, hpoint⟩ := D.left_point hleft
    have hdb := (openOrRemove_own D hown hopen).2 _ rfl
    rw [hpoint]
    exact (fill_covering D hdb (Nat.le_trans hm hn) hfill).1

theorem own_of_lives (D : F.Durable R) {files files' : F.Files} (hempty : ∀ k, D.entries files k = none)
    (hlives : Relation.ReflTransGen (Life F) files files') : Own (D.entries files') := by
  induction hlives with
  | refl => exact .empty hempty
  | tail _ hlife ih => exact hlife.own D ih

/-- **The database recovers.** From files without entries, and after any number of processes that were stopped at any time and left the database as it was at some point, or could not open it at all: if the constructor opens the database and every put succeeds, no assert of it fails, and the lookups are as exact as in a new database. -/
theorem lookups_after_restarts (D : F.Durable R) {files files' final : F.Files} {db db' : S.Db}
    (hempty : ∀ k, D.entries files k = none) (hlives : Relation.ReflTransGen (Life F) files files')
    (hopen : openOrRemove F files' = (.ok db, final)) (hfill : fill S db = .ok (true, db')) :
    new S db = .ok db' ∧
    (∀ startEntry rangeSize : UInt32, rangeQuery S startEntry rangeSize db' =
      .ok (decide (rangeSize = 0 ∨ startEntry.toNat + rangeSize.toNat ≤ kNumEntries.toNat))) ∧
    ∀ entry : UInt32, get S entry db' = .ok (decide (entry < kNumEntries)) := by
  have hdb : Own (R.contents db) := (openOrRemove_own D (own_of_lives D hempty hlives) hopen).2 db rfl
  have hfilled : Filled R kNumEntries.toNat db' := ((fill_covering D hdb (Nat.le_refl _) hfill).2 rfl).listing
  exact ⟨hfilled.new_ok hfill, hfilled.rangeQuery_exact, hfilled.get_exact⟩

end

/-- Files with a journal in them, which cannot be opened once they are damaged. -/
def journalStorage : Storage (journal Bytes Bytes) where
  Files := Bool × List (Bytes × Bytes)
  dbOpen files := if files.1 then (none, files) else (some files.2, files)
  pathExists _ := true
  removeAll _ := (true, (false, []))
  left written files := written files.2

def journalStorage_durable : journalStorage.Durable (journalMap Bytes Bytes) where
  entries := fun (files : Bool × List (Bytes × Bytes)) => (journalMap Bytes Bytes).contents files.2
  open_ok := by
    intro (f : Bool × List (Bytes × Bytes)) f' db hopen
    cases hdamaged : f.1 with
    | true =>
      simp only [journalStorage, hdamaged, if_true] at hopen
      cases (Prod.mk.inj hopen).1
    | false =>
      simp only [journalStorage, hdamaged, Bool.false_eq_true, if_false] at hopen
      rw [← Option.some.inj (Prod.mk.inj hopen).1]
  open_failed := by
    intro (f : Bool × List (Bytes × Bytes)) f' hopen k v hsome
    cases hdamaged : f.1 with
    | true =>
      simp only [journalStorage, hdamaged, if_true] at hopen
      rw [(Prod.mk.inj hopen).2]
      exact hsome
    | false =>
      simp only [journalStorage, hdamaged, Bool.false_eq_true, if_false] at hopen
      cases (Prod.mk.inj hopen).1
  removeAll_ok := by
    intro f f' hremoved k
    obtain ⟨-, rfl⟩ := Prod.mk.inj hremoved
    rfl
  removeAll_failed := by
    intro f f' hremoved
    cases hremoved
  put_failed := by
    intro k v d hfailed
    cases hfailed
  left_point hleft := ⟨_, hleft, rfl⟩

/-- One process was stopped after two puts and left damaged files, the next one after one put; then the database is filled. -/
theorem lookups_after_restarts_damaged : ∃ stored db', fillFrom (journal Bytes Bytes) 1 0 [] = .ok (true, stored) ∧
    fill (journal Bytes Bytes) stored = .ok (true, db') ∧ new (journal Bytes Bytes) stored = .ok db' ∧
    rangeQuery (journal Bytes Bytes) 995000 5000 db' = .ok true ∧
    get (journal Bytes Bytes) 999999 db' = .ok true ∧ get (journal Bytes Bytes) 1000000 db' = .ok false := by
  have hput : ∀ k v db, ((journal Bytes Bytes).put k v db).1 = true := fun _ _ _ => rfl
  obtain ⟨lost, hlost⟩ := fillFrom_returns hput 2 0 []
  obtain ⟨stored, hstored⟩ := fillFrom_returns hput 1 0 []
  obtain ⟨db', hfill⟩ := fillFrom_returns hput kNumEntries.toNat 0 stored
  have hfirst : Life journalStorage (false, []) (true, lost) :=
    .filling 2 rfl (by decide) ⟨2, Nat.le_refl 2, true, hlost⟩
  have hsecond : Life journalStorage (true, lost) (false, stored) :=
    .filling 1 rfl (by decide) ⟨1, Nat.le_refl 1, true, hstored⟩
  have hlives : Relation.ReflTransGen (Life journalStorage) (false, []) (false, stored) :=
    (Relation.ReflTransGen.single hfirst).tail hsecond
  obtain ⟨hnew, hrange, hget⟩ := lookups_after_restarts journalStorage_durable (fun _ => rfl) hlives rfl hfill
  exact ⟨stored, db', hstored, hfill, hnew, hrange 995000 5000, hget 999999, hget 1000000⟩

end Database

end Workload

end CosUserspace
