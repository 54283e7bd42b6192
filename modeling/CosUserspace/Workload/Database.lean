import CosUserspace.Library.Numerals
import CosUserspace.Library.OrderedMap
import Mathlib.Order.Fin.Basic

/-!
# The database of the rocksdb workload

`Database` of `workload/rocksdb.cpp`, over any key-value store: `Fill` puts the entries `0, …, kNumEntries - 1`, `Get` looks one up, and `RangeQuery` walks over `range_size` of them with an iterator. Keys and values carry the entry as a decimal number of 16 digits, so the order of the keys is that of the entries. The text that `RangeQuery` puts together is never read, and left out.
-/

namespace CosUserspace

namespace Workload

/-- The bytes of a `std::string`. -/
abbrev Bytes := List (Fin 256)

def byte (c : Char) : Fin 256 := Fin.ofNat 256 c.toNat

/-- The asserts on the way of a request through the database. -/
inductive RequestStop
  /-- `assert(s.size() <= kNumLength)` -/
  | keyLength
  /-- `assert(value == Value(entry))` -/
  | getValue
  /-- `assert(it->value().ToString() == Value(start_entry + i))` -/
  | rangeValue
  /-- `assert(Fill())` -/
  | fill
  /-- `assert(Get(i))` -/
  | prepopulate
  /-- `assert(request->IsGet())` -/
  | isGet
  /-- `assert(request->IsRange())` -/
  | isRange
  deriving DecidableEq, Repr

namespace Database

/-- The number of entries in the database. -/
def kNumEntries : UInt32 := 1000000

def kNumLength : UInt32 := 16

/-- `std::to_string` -/
def stdToString (entry : UInt32) : Bytes := (Nat.toDigits 10 entry.toNat).map byte

def toString (entry : UInt32) : Except RequestStop Bytes :=
  let s := stdToString entry
  if s.length ≤ kNumLength.toNat then .ok (List.replicate (kNumLength.toNat - s.length) (byte '0') ++ s)
  else .error .keyLength

/-- The key string for `entry`. -/
def key (entry : UInt32) : Except RequestStop Bytes := do
  .ok (['k', 'e', 'y'].map byte ++ (← toString entry))

/-- The value string for `entry`. -/
def value (entry : UInt32) : Except RequestStop Bytes := do
  .ok (['v', 'a', 'l', 'u', 'e'].map byte ++ (← toString entry))

variable (S : KeyValueStore Bytes Bytes)

/-- The loop of `Fill` from the entry `i` on, with `left` of them to go. -/
def fillFrom : Nat → UInt32 → S.Db → Except RequestStop (Bool × S.Db)
  | 0, _, db => .ok (true, db)
  | left + 1, i, db => do
    let (ok, db) := S.put (← key i) (← value i) db
    if ok then fillFrom left (i + 1) db else .ok (false, db)

def fill (db : S.Db) : Except RequestStop (Bool × S.Db) := fillFrom S kNumEntries.toNat 0 db

def get (entry : UInt32) (db : S.Db) : Except RequestStop Bool := do
  match S.get (← key entry) db with
  | none => .ok false
  | some found => if found = (← value entry) then .ok true else .error .getValue

/-- The loop of `RangeQuery` from `i` on, with `left` entries to go. -/
def rangeFrom (startEntry : UInt32) : Nat → UInt32 → S.Iterator → Except RequestStop Bool
  | 0, _, _ => .ok true
  | left + 1, i, it =>
    if S.valid it then do
      if S.value it = (← value (startEntry + i)) then rangeFrom startEntry left (i + 1) (S.next it)
      else .error .rangeValue
    else .ok false

def rangeQuery (startEntry rangeSize : UInt32) (db : S.Db) : Except RequestStop Bool := do
  rangeFrom S startEntry rangeSize.toNat 0 (S.seek (← key startEntry) (S.newIterator db))

/-- The loop of `PrepopulateCache` from the entry `i` on, with `left` of them to go. -/
def prepopulateFrom : Nat → UInt32 → S.Db → Except RequestStop Unit
  | 0, _, _ => .ok ()
  | left + 1, i, db => do
    if ← get S i db then prepopulateFrom left (i + 1) db else .error .prepopulate

def prepopulateCache (db : S.Db) : Except RequestStop Unit := prepopulateFrom S kNumEntries.toNat 0 db

/-- The constructor, on the database that it has opened. -/
def new (db : S.Db) : Except RequestStop S.Db := do
  let (ok, db) ← fill S db
  if ok then
    prepopulateCache S db
    .ok db
  else .error .fill

/-! ### Keys -/

/-- The digits that `to_string` writes. -/
def digits (n : ℕ) : Bytes := Numerals.fixedWidth (byte ∘ Nat.digitChar) 10 16 n

/-- The key and the value string of the entry `n`. -/
def keyOf (n : ℕ) : Bytes := ['k', 'e', 'y'].map byte ++ digits n

def valueOf (n : ℕ) : Bytes := ['v', 'a', 'l', 'u', 'e'].map byte ++ digits n

variable {S}

theorem toNat_lt_bound (entry : UInt32) : entry.toNat < 10 ^ 16 := Nat.lt_trans entry.toNat_lt (by decide)

/-- Ten digits are enough for every entry, so the assert holds. -/
theorem toString_eq (entry : UInt32) : toString entry = .ok (digits entry.toNat) := by
  have hlength : (Nat.toDigits 10 entry.toNat).length ≤ 16 :=
    (Nat.length_toDigits_le_iff (by decide) (by decide)).mpr (toNat_lt_bound entry)
  have hfill : List.replicate (16 - (Nat.toDigits 10 entry.toNat).length) '0' ++ Nat.toDigits 10 entry.toNat =
      Numerals.fixedWidth Nat.digitChar 10 16 entry.toNat :=
    Numerals.fill_toDigits (by decide) (by decide) (toNat_lt_bound entry)
  have hbytes := congrArg (List.map byte) hfill
  rw [List.map_append, List.map_replicate, Numerals.map_fixedWidth] at hbytes
  have hnum : kNumLength.toNat = 16 := rfl
  simp only [toString, stdToString, List.length_map, hnum, if_pos hlength, hbytes, digits]

@[simp] theorem key_eq (entry : UInt32) : key entry = .ok (keyOf entry.toNat) := by
  rw [key, toString_eq]
  rfl

@[simp] theorem value_eq (entry : UInt32) : value entry = .ok (valueOf entry.toNat) := by
  rw [value, toString_eq]
  rfl

theorem digit_strictMonoOn : StrictMonoOn (byte ∘ Nat.digitChar) (Set.Iio 10) := by
  intro d hd e he hlt
  have hvalue : ∀ {d : ℕ}, d < 10 → (byte (Nat.digitChar d)).val = 48 + d := fun {d} hd => by
    show (Nat.digitChar d).toNat % 256 = 48 + d
    rw [Nat.toNat_digitChar_of_lt_ten hd]
    omega
  show (byte (Nat.digitChar d)).val < (byte (Nat.digitChar e)).val
  rw [hvalue hd, hvalue he]
  omega

theorem keyOf_strictMonoOn : StrictMonoOn keyOf (Set.Iio (10 ^ 16)) := by
  intro m hm n hn hlt
  apply List.append_left_lt
  exact Numerals.fixedWidth_strictMonoOn digit_strictMonoOn (by decide) 16 hm hn hlt

/-- The keys are ordered as the entries are. -/
theorem keyOf_lt {a b : UInt32} (hlt : a < b) : keyOf a.toNat < keyOf b.toNat :=
  keyOf_strictMonoOn (toNat_lt_bound a) (toNat_lt_bound b) hlt

/-! ### Fill -/

/-- The database holds the entries below `n`. -/
abbrev Filled (R : S.OrderedMap) (n : ℕ) (db : S.Db) : Prop := Listing keyOf valueOf n (R.contents db)

variable {R : S.OrderedMap}

theorem fillFrom_succ (left : ℕ) (i : UInt32) (db : S.Db) :
    fillFrom S (left + 1) i db =
      if (S.put (keyOf i.toNat) (valueOf i.toNat) db).1 then
        fillFrom S left (i + 1) (S.put (keyOf i.toNat) (valueOf i.toNat) db).2
      else .ok (false, (S.put (keyOf i.toNat) (valueOf i.toNat) db).2) := by
  simp only [fillFrom, key_eq, value_eq, bind, Except.bind]

/-- The loop counter does not wrap around below the end of the loop. -/
theorem toNat_succ {i : UInt32} (hi : i.toNat + 1 < 2 ^ 32) : (i + 1).toNat = i.toNat + 1 := by
  rw [UInt32.toNat_add]
  exact Nat.mod_eq_of_lt hi

theorem fillFrom_filled {left : ℕ} {i : UInt32} {db db' : S.Db} (hfilled : Filled R i.toNat db)
    (hbound : i.toNat + left < 2 ^ 32) (hfill : fillFrom S left i db = .ok (true, db')) :
    Filled R (i.toNat + left) db' := by
  induction left generalizing i db with
  | zero =>
    obtain ⟨-, rfl⟩ := Prod.mk.inj (Except.ok.inj hfill)
    exact hfilled
  | succ left ih =>
    rw [fillFrom_succ] at hfill
    split at hfill
    · rename_i hput
      have hnext : (i + 1).toNat = i.toNat + 1 := toNat_succ (by omega)
      have hone : Filled R (i + 1).toNat (S.put (keyOf i.toNat) (valueOf i.toNat) db).2 := by
        unfold Filled
        rw [hnext, R.put_contents hput]
        exact hfilled.snoc keyOf_strictMonoOn (toNat_lt_bound i)
      have hrest := ih hone (by omega) hfill
      rwa [hnext, Nat.add_assoc, Nat.add_comm 1] at hrest
    · cases hfill

theorem fill_filled {db db' : S.Db} (hempty : ∀ k, R.contents db k = none) (hfill : fill S db = .ok (true, db')) :
    Filled R kNumEntries.toNat db' := by
  have hfilled := fillFrom_filled (i := 0) (.empty hempty) (by decide) hfill
  rwa [show (0 : UInt32).toNat = 0 from rfl, Nat.zero_add] at hfilled

/-- A store that takes every put is filled. -/
theorem fillFrom_returns (hput : ∀ k v db, (S.put k v db).1 = true) (left : ℕ) (i : UInt32) (db : S.Db) :
    ∃ db', fillFrom S left i db = .ok (true, db') := by
  induction left generalizing i db with
  | zero => exact ⟨db, rfl⟩
  | succ left ih =>
    rw [fillFrom_succ, if_pos (hput ..)]
    exact ih ..

/-! ### Lookups -/

section Lookups

variable {n : ℕ} {db : S.Db}

theorem get_eq (hfilled : Filled R n db) (hn : n ≤ 2 ^ 32) (entry : UInt32) :
    get S entry db = .ok (decide (entry.toNat < n)) := by
  have hlookup := hfilled.lookup keyOf_strictMonoOn (Nat.le_trans hn (by decide)) (toNat_lt_bound entry)
  simp only [get, key_eq, value_eq, bind, Except.bind, R.get_eq, hlookup]
  by_cases hlt : entry.toNat < n
  · simp [hlt]
  · simp [hlt]

theorem rangeFrom_succ (startEntry : UInt32) (left : ℕ) (i : UInt32) (it : S.Iterator) :
    rangeFrom S startEntry (left + 1) i it =
      if S.valid it then
        if S.value it = valueOf (startEntry + i).toNat then rangeFrom S startEntry left (i + 1) (S.next it)
        else .error .rangeValue
      else .ok false := by
  simp only [rangeFrom, value_eq, bind, Except.bind]

/-- From an iterator at the entry `start_entry + i` on, the loop returns true if the database has the entries to go. -/
theorem rangeFrom_eq {startEntry : UInt32} {left : ℕ} {i : UInt32} {it : S.Iterator} (hn : n ≤ 2 ^ 32)
    (hat : R.At keyOf valueOf n (startEntry.toNat + i.toNat) it) (hbound : i.toNat + left < 2 ^ 32) :
    rangeFrom S startEntry left i it = .ok (decide (left = 0 ∨ startEntry.toNat + i.toNat + left ≤ n)) := by
  induction left generalizing i it with
  | zero => rfl
  | succ left ih =>
    rw [rangeFrom_succ, hat.valid_eq]
    by_cases hlt : startEntry.toNat + i.toNat < n
    · have hsum : (startEntry + i).toNat = startEntry.toNat + i.toNat := by
        rw [UInt32.toNat_add]
        exact Nat.mod_eq_of_lt (by omega)
      have hnext : (i + 1).toNat = i.toNat + 1 := toNat_succ (by omega)
      have hatNext := hat.next keyOf_strictMonoOn (Nat.le_trans hn (by decide)) hlt
      rw [Nat.add_assoc, ← hnext] at hatNext
      rw [if_pos (decide_eq_true hlt), hat.value_eq hlt, hsum, if_pos rfl, ih hatNext (by omega), Except.ok.injEq,
        decide_eq_decide, hnext]
      omega
    · -- the iterator has run past the last entry
      have hmore : ¬ (left + 1 = 0 ∨ startEntry.toNat + i.toNat + (left + 1) ≤ n) := by omega
      rw [decide_eq_false hlt, decide_eq_false hmore]
      rfl

theorem rangeQuery_eq (hfilled : Filled R n db) (hn : n ≤ 2 ^ 32) (startEntry rangeSize : UInt32) :
    rangeQuery S startEntry rangeSize db =
      .ok (decide (rangeSize.toNat = 0 ∨ startEntry.toNat + rangeSize.toNat ≤ n)) := by
  have hat := KeyValueStore.OrderedMap.At.seek hfilled keyOf_strictMonoOn (Nat.le_trans hn (by decide))
    (toNat_lt_bound startEntry)
  have hbound : (0 : UInt32).toNat + rangeSize.toNat < 2 ^ 32 := by
    show 0 + rangeSize.toNat < 2 ^ 32
    rw [Nat.zero_add]
    exact rangeSize.toNat_lt
  simp only [rangeQuery, key_eq, bind, Except.bind]
  exact rangeFrom_eq hn hat hbound

theorem prepopulateFrom_ok {left : ℕ} {i : UInt32} (hfilled : Filled R n db) (hn : n < 2 ^ 32)
    (hbound : i.toNat + left ≤ n) : prepopulateFrom S left i db = .ok () := by
  induction left generalizing i with
  | zero => rfl
  | succ left ih =>
    have hlt : i.toNat < n := by omega
    have hnext : (i + 1).toNat = i.toNat + 1 := toNat_succ (by omega)
    simp only [prepopulateFrom, get_eq hfilled hn.le, bind, Except.bind, decide_eq_true hlt, if_true]
    apply ih
    omega

end Lookups

variable {db db' : S.Db}

namespace Filled

/-- The asserts of the constructor hold once the database is filled. -/
theorem new_ok (hfilled : Filled R kNumEntries.toNat db') (hfill : fill S db = .ok (true, db')) : new S db = .ok db' := by
  have hcache : prepopulateCache S db' = .ok () := prepopulateFrom_ok hfilled (by decide) (Nat.le_of_eq (Nat.zero_add _))
  simp only [new, hfill, bind, Except.bind, if_true, hcache]

theorem rangeQuery_exact (hfilled : Filled R kNumEntries.toNat db') (startEntry rangeSize : UInt32) :
    rangeQuery S startEntry rangeSize db' =
      .ok (decide (rangeSize = 0 ∨ startEntry.toNat + rangeSize.toNat ≤ kNumEntries.toNat)) := by
  have hzero : rangeSize = 0 ↔ rangeSize.toNat = 0 := UInt32.toNat_inj.symm
  simp only [rangeQuery_eq hfilled (by decide), hzero]

theorem get_exact (hfilled : Filled R kNumEntries.toNat db') (entry : UInt32) :
    get S entry db' = .ok (decide (entry < kNumEntries)) := by
  simp only [get_eq hfilled (by decide), UInt32.lt_iff_toNat_lt]

end Filled

/-- **Lookups are exact.** Keys are ordered as their entries, and in the filled database a range query succeeds if it is empty or ends by the last entry, and a get if the entry is there; no assert fails. -/
theorem lookups_exact (hempty : ∀ k, R.contents db k = none) (hfill : fill S db = .ok (true, db')) :
    (∀ a b : UInt32, a < b → ∃ keyA keyB, key a = .ok keyA ∧ key b = .ok keyB ∧ keyA < keyB) ∧
    (∀ startEntry rangeSize : UInt32, rangeQuery S startEntry rangeSize db' =
      .ok (decide (rangeSize = 0 ∨ startEntry.toNat + rangeSize.toNat ≤ kNumEntries.toNat))) ∧
    ∀ entry : UInt32, get S entry db' = .ok (decide (entry < kNumEntries)) := by
  have hfilled := fill_filled hempty hfill
  refine ⟨?_, hfilled.rangeQuery_exact, hfilled.get_exact⟩
  intro a b hlt
  exact ⟨_, _, key_eq a, key_eq b, keyOf_lt hlt⟩

theorem fill_journal : ∃ db', fill (journal Bytes Bytes) [] = .ok (true, db') :=
  fillFrom_returns (fun _ _ _ => rfl) ..

theorem lookups_exact_journal : ∃ db', fill (journal Bytes Bytes) [] = .ok (true, db') ∧
    rangeQuery (journal Bytes Bytes) 995000 5000 db' = .ok true ∧
    rangeQuery (journal Bytes Bytes) 4294967295 2 db' = .ok false ∧
    get (journal Bytes Bytes) 999999 db' = .ok true ∧ get (journal Bytes Bytes) 1000000 db' = .ok false := by
  obtain ⟨db', hfill⟩ := fill_journal
  have hempty : ∀ k, (journalMap Bytes Bytes).contents [] k = none := fun _ => rfl
  obtain ⟨-, hrange, hget⟩ := lookups_exact hempty hfill
  exact ⟨db', hfill, hrange 995000 5000, hrange 4294967295 2, hget 999999, hget 1000000⟩

end Database

end Workload

end CosUserspace
