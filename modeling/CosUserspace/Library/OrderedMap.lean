import Mathlib.Data.List.MinMax
import Mathlib.Logic.Function.Basic
import Mathlib.Order.Bounds.Defs
import Mathlib.Order.Interval.Set.Defs
import Mathlib.Order.Monotone.Basic

/-!
# Ordered maps with iterators

`KeyValueStore` is what a program sees of a key-value store: puts and gets, and iterators that are sought to a key and moved on. `OrderedMap` says that such a store behaves as a map whose iterators walk over the keys in their order. `Listing` describes the contents of a map by an increasing list of keys, and says where an iterator over them stands; `Covering` describes a map on its way to such contents.
-/

namespace CosUserspace

variable {κ ν : Type}

structure KeyValueStore (κ ν : Type) where
  Db : Type
  Iterator : Type
  /-- whether the status is ok, and the store afterwards -/
  put : κ → ν → Db → Bool × Db
  /-- the value, if the status is ok -/
  get : κ → Db → Option ν
  newIterator : Db → Iterator
  seek : κ → Iterator → Iterator
  valid : Iterator → Bool
  value : Iterator → ν
  next : Iterator → Iterator

/-- Among the keys of `m` that `p` admits, `cursor` is the least one; `none` says that there is none. -/
def First [LE κ] (m : κ → Option ν) (p : κ → Prop) : Option κ → Prop
  | some k => IsLeast {k | p k ∧ (m k).isSome} k
  | none => ∀ k, p k → m k = none

/-- The store is a map, and an iterator walks in ascending order over the map it was made from. -/
structure KeyValueStore.OrderedMap [LinearOrder κ] (S : KeyValueStore κ ν) where
  contents : S.Db → κ → Option ν
  /-- the map the iterator was made from -/
  snapshot : S.Iterator → κ → Option ν
  /-- the key the iterator stands at -/
  cursor : S.Iterator → Option κ
  put_contents : ∀ {k v d}, (S.put k v d).1 = true →
    contents (S.put k v d).2 = Function.update (contents d) k (some v)
  get_eq : ∀ k d, S.get k d = contents d k
  snapshot_newIterator : ∀ d, snapshot (S.newIterator d) = contents d
  snapshot_seek : ∀ k it, snapshot (S.seek k it) = snapshot it
  snapshot_next : ∀ {k it}, cursor it = some k → snapshot (S.next it) = snapshot it
  seek_first : ∀ k it, First (snapshot it) (k ≤ ·) (cursor (S.seek k it))
  next_first : ∀ {k it}, cursor it = some k → First (snapshot it) (k < ·) (cursor (S.next it))
  valid_eq : ∀ it, S.valid it = (cursor it).isSome
  value_eq : ∀ {k it}, cursor it = some k → snapshot it k = some (S.value it)

/-! ### Listings -/

/-- The entries of `m` are `key i ↦ value i` for the `i` below `n`. -/
structure Listing (key : ℕ → κ) (value : ℕ → ν) (n : ℕ) (m : κ → Option ν) : Prop where
  entry : ∀ i < n, m (key i) = some (value i)
  only : ∀ k, (m k).isSome → ∃ i < n, k = key i

namespace Listing

variable {key : ℕ → κ} {value : ℕ → ν} {n bound : ℕ} {m : κ → Option ν}

theorem empty (hempty : ∀ k, m k = none) : Listing key value 0 m where
  entry i hi := absurd hi (Nat.not_lt_zero i)
  only k hk := by simp [hempty k] at hk

/-- The key that stands at the place `i` of the list. -/
def place (key : ℕ → κ) (n i : ℕ) : Option κ := if i < n then some (key i) else none

variable [LinearOrder κ]

theorem snoc (h : Listing key value n m) (hkey : StrictMonoOn key (Set.Iio bound)) (hn : n < bound) :
    Listing key value (n + 1) (Function.update m (key n) (some (value n))) where
  entry i hi := by
    rcases Nat.lt_succ_iff_lt_or_eq.mp hi with hlt | rfl
    · have hne : key i ≠ key n := (hkey (Nat.lt_trans hlt hn) hn hlt).ne
      rw [Function.update_of_ne hne]
      exact h.entry i hlt
    · exact Function.update_self ..
  only k hk := by
    by_cases hlast : k = key n
    · exact ⟨n, Nat.lt_succ_self n, hlast⟩
    · rw [Function.update_of_ne hlast] at hk
      obtain ⟨i, hi, heq⟩ := h.only k hk
      exact ⟨i, Nat.lt_succ_of_lt hi, heq⟩

theorem lookup (h : Listing key value n m) (hkey : StrictMonoOn key (Set.Iio bound)) (hn : n ≤ bound) {i : ℕ}
    (hi : i < bound) : m (key i) = if i < n then some (value i) else none := by
  split
  · exact h.entry i ‹_›
  · rename_i hge
    by_contra hsome
    obtain ⟨j, hj, heq⟩ := h.only (key i) (Option.isSome_iff_ne_none.mpr hsome)
    have hsame : i = j := hkey.injOn hi (Nat.lt_of_lt_of_le hj hn) heq
    omega

/-- The first key that `p` admits stands at the place `i`, when `p` admits the keys from this place on. -/
theorem first_eq (h : Listing key value n m) (hkey : StrictMonoOn key (Set.Iio bound)) (hn : n ≤ bound) {p : κ → Prop}
    {i : ℕ} (hp : ∀ j < n, p (key j) ↔ i ≤ j) {cursor : Option κ} (hfirst : First m p cursor) :
    cursor = place key n i := by
  have hlt : ∀ {j}, j < n → j < bound := fun hj => Nat.lt_of_lt_of_le hj hn
  unfold place
  cases cursor with
  | none =>
    split
    · rename_i hi
      have hnone := hfirst (key i) ((hp i hi).mpr (Nat.le_refl i))
      rw [h.entry i hi] at hnone
      cases hnone
    · rfl
  | some k =>
    obtain ⟨⟨hpk, hsome⟩, hleast⟩ := hfirst
    obtain ⟨j, hj, rfl⟩ := h.only k hsome
    have hle : i ≤ j := (hp j hj).mp hpk
    have hi : i < n := Nat.lt_of_le_of_lt hle hj
    have hmem : p (key i) ∧ (m (key i)).isSome := by
      refine ⟨(hp i hi).mpr (Nat.le_refl i), ?_⟩
      rw [h.entry i hi]
      rfl
    have hge : j ≤ i := (hkey.le_iff_le (hlt hj) (hlt hi)).mp (hleast hmem)
    rw [if_pos hi, Nat.le_antisymm hle hge]

end Listing

/-- The entries of `m` are some of the `key i ↦ value i` for the `i` below `bound`, and all of those below `n`. -/
structure Covering (key : ℕ → κ) (value : ℕ → ν) (bound n : ℕ) (m : κ → Option ν) : Prop where
  entry : ∀ i < n, m (key i) = some (value i)
  only : ∀ k v, m k = some v → ∃ i < bound, k = key i ∧ v = value i

namespace Covering

variable {key : ℕ → κ} {value : ℕ → ν} {n bound : ℕ} {m m' : κ → Option ν}

theorem empty (hempty : ∀ k, m k = none) : Covering key value bound 0 m where
  entry i hi := absurd hi (Nat.not_lt_zero i)
  only k v hk := by simp [hempty k] at hk

/-- Entries may get lost, and the next one may be there. -/
theorem weaken (h : Covering key value bound n m) (hn : n < bound)
    (hsub : ∀ k v, m' k = some v → m k = some v ∨ k = key n ∧ v = value n) : Covering key value bound 0 m' where
  entry i hi := absurd hi (Nat.not_lt_zero i)
  only k v hk := by
    rcases hsub k v hk with hold | hnew
    · exact h.only k v hold
    · exact ⟨n, hn, hnew⟩

theorem lose (h : Covering key value bound n m) (hsub : ∀ k v, m' k = some v → m k = some v) :
    Covering key value bound 0 m' where
  entry i hi := absurd hi (Nat.not_lt_zero i)
  only k v hk := h.only k v (hsub k v hk)

theorem listing (h : Covering key value bound bound m) : Listing key value bound m where
  entry := h.entry
  only k hk := by
    obtain ⟨v, hv⟩ := Option.isSome_iff_exists.mp hk
    obtain ⟨i, hi, heq, -⟩ := h.only k v hv
    exact ⟨i, hi, heq⟩

variable [LinearOrder κ]

/-- The entry `n` is put, whether or not it is there. -/
theorem put (h : Covering key value bound n m) (hkey : StrictMonoOn key (Set.Iio bound)) (hn : n < bound) :
    Covering key value bound (n + 1) (Function.update m (key n) (some (value n))) where
  entry i hi := by
    rcases Nat.lt_succ_iff_lt_or_eq.mp hi with hlt | rfl
    · have hne : key i ≠ key n := (hkey (Nat.lt_trans hlt hn) hn hlt).ne
      rw [Function.update_of_ne hne]
      exact h.entry i hlt
    · exact Function.update_self ..
  only k v hk := by
    by_cases heq : k = key n
    · subst heq
      rw [Function.update_self] at hk
      exact ⟨n, hn, rfl, (Option.some.inj hk).symm⟩
    · rw [Function.update_of_ne heq] at hk
      exact h.only k v hk

end Covering

namespace KeyValueStore.OrderedMap

variable [LinearOrder κ] {S : KeyValueStore κ ν} {key : ℕ → κ} {value : ℕ → ν} {n bound i : ℕ}

/-- The iterator walks over the listed keys and stands at the place `i`; past the last one it is not valid. -/
structure At (R : S.OrderedMap) (key : ℕ → κ) (value : ℕ → ν) (n i : ℕ) (it : S.Iterator) : Prop where
  listing : Listing key value n (R.snapshot it)
  cursor_eq : R.cursor it = Listing.place key n i

namespace At

variable {R : S.OrderedMap} {it : S.Iterator}

theorem seek {d : S.Db} (hlisting : Listing key value n (R.contents d)) (hkey : StrictMonoOn key (Set.Iio bound))
    (hn : n ≤ bound) (hi : i < bound) : R.At key value n i (S.seek (key i) (S.newIterator d)) := by
  have hsnapshot : R.snapshot (S.seek (key i) (S.newIterator d)) = R.contents d := by
    rw [R.snapshot_seek, R.snapshot_newIterator]
  constructor
  case listing => exact hsnapshot ▸ hlisting
  case cursor_eq =>
    have hfirst := R.seek_first (key i) (S.newIterator d)
    rw [R.snapshot_newIterator] at hfirst
    exact hlisting.first_eq hkey hn (fun j hj => hkey.le_iff_le hi (Nat.lt_of_lt_of_le hj hn)) hfirst

theorem valid_eq (h : R.At key value n i it) : S.valid it = decide (i < n) := by
  rw [R.valid_eq, h.cursor_eq, Listing.place]
  split <;> simp [*]

theorem value_eq (h : R.At key value n i it) (hi : i < n) : S.value it = value i := by
  have hcursor : R.cursor it = some (key i) := by rw [h.cursor_eq, Listing.place, if_pos hi]
  have hvalue := R.value_eq hcursor
  rw [h.listing.entry i hi] at hvalue
  exact (Option.some.inj hvalue).symm

theorem next (h : R.At key value n i it) (hkey : StrictMonoOn key (Set.Iio bound)) (hn : n ≤ bound) (hi : i < n) :
    R.At key value n (i + 1) (S.next it) := by
  have hcursor : R.cursor it = some (key i) := by rw [h.cursor_eq, Listing.place, if_pos hi]
  constructor
  case listing => exact R.snapshot_next hcursor ▸ h.listing
  case cursor_eq =>
    apply h.listing.first_eq hkey hn _ (R.next_first hcursor)
    intro j hj
    exact hkey.lt_iff_lt (Nat.lt_of_lt_of_le hi hn) (Nat.lt_of_lt_of_le hj hn)

end At

end KeyValueStore.OrderedMap

/-! ### A store -/

section Journal

variable [LinearOrder κ]

/-- The least key of the entries that `p` admits. -/
def leastKey (entries : List (κ × ν)) (p : κ → Bool) : Option κ := ((entries.map Prod.fst).filter p).argmin id

theorem lookup_isSome_iff_mem {entries : List (κ × ν)} {k : κ} :
    (entries.lookup k).isSome ↔ k ∈ entries.map Prod.fst := by
  rw [List.lookup_isSome_iff, List.mem_map]
  constructor
  · intro h
    obtain ⟨entry, hmem, hkey⟩ := h
    exact ⟨entry, hmem, (beq_iff_eq.mp hkey).symm⟩
  · intro h
    obtain ⟨entry, hmem, rfl⟩ := h
    exact ⟨entry, hmem, beq_self_eq_true _⟩

theorem leastKey_first (entries : List (κ × ν)) (p : κ → Prop) [DecidablePred p] :
    First (fun k => entries.lookup k) p (leastKey entries fun k => p k) := by
  have hmem : ∀ k, k ∈ (entries.map Prod.fst).filter (fun k => p k) ↔ p k ∧ (entries.lookup k).isSome := by
    intro k
    rw [List.mem_filter, decide_eq_true_iff, lookup_isSome_iff_mem]
    exact and_comm
  cases hleast : leastKey entries fun k => p k with
  | none =>
    intro k hk
    have hempty : (entries.map Prod.fst).filter (fun k => p k) = [] := List.argmin_eq_none.mp hleast
    by_contra hsome
    have hlisted := (hmem k).mpr ⟨hk, Option.isSome_iff_ne_none.mpr hsome⟩
    rw [hempty] at hlisted
    exact absurd hlisted List.not_mem_nil
  | some least =>
    have hlisted := List.argmin_mem hleast
    exact ⟨(hmem least).mp hlisted, fun k hk => List.le_of_mem_argmin ((hmem k).mpr hk) hleast⟩

/-- An iterator over a journal stands at one of its keys. -/
structure JournalIterator (κ ν : Type) [LinearOrder κ] where
  entries : List (κ × ν)
  cursor : Option κ
  listed : ∀ k, cursor = some k → (entries.lookup k).isSome

namespace JournalIterator

def goto (entries : List (κ × ν)) (p : κ → Prop) [DecidablePred p] : JournalIterator κ ν where
  entries := entries
  cursor := leastKey entries fun k => p k
  listed k hcursor := by
    have hfirst := leastKey_first entries p
    rw [hcursor] at hfirst
    exact hfirst.1.2

def value [Inhabited ν] (it : JournalIterator κ ν) : ν := (it.cursor.bind fun k => it.entries.lookup k).getD default

def next (it : JournalIterator κ ν) : JournalIterator κ ν :=
  match it.cursor with
  | some k => goto it.entries (k < ·)
  | none => it

end JournalIterator

/-- The store that writes its puts down, the newest first. -/
def journal (κ ν : Type) [LinearOrder κ] [Inhabited ν] : KeyValueStore κ ν where
  Db := List (κ × ν)
  Iterator := JournalIterator κ ν
  put k v entries := (true, (k, v) :: entries)
  get k entries := entries.lookup k
  newIterator entries := ⟨entries, none, by simp⟩
  seek k it := .goto it.entries (k ≤ ·)
  valid it := it.cursor.isSome
  value it := it.value
  next it := it.next

theorem lookup_cons_eq_update (k : κ) (v : ν) (entries : List (κ × ν)) :
    (fun k' => ((k, v) :: entries).lookup k') = Function.update (fun k' => entries.lookup k') k (some v) := by
  funext k'
  rw [Function.update_apply, List.lookup_cons]
  by_cases heq : k' = k
  · rw [heq, beq_self_eq_true, if_pos rfl]
  · rw [beq_false_of_ne heq, if_neg heq]

/-- A journal is an ordered map. -/
def journalMap (κ ν : Type) [LinearOrder κ] [Inhabited ν] : (journal κ ν).OrderedMap where
  contents := fun (entries : List (κ × ν)) k => entries.lookup k
  snapshot := fun (it : JournalIterator κ ν) k => it.entries.lookup k
  cursor := JournalIterator.cursor
  put_contents _ := lookup_cons_eq_update ..
  get_eq _ _ := rfl
  snapshot_newIterator _ := rfl
  snapshot_seek _ _ := rfl
  snapshot_next := by
    intro k (it : JournalIterator κ ν) hcursor
    show (fun k => it.next.entries.lookup k) = _
    unfold JournalIterator.next
    rw [hcursor]
    rfl
  seek_first _ it := leastKey_first (JournalIterator.entries it) _
  next_first := by
    intro k (it : JournalIterator κ ν) hcursor
    show First _ _ it.next.cursor
    unfold JournalIterator.next
    rw [hcursor]
    exact leastKey_first it.entries (k < ·)
  valid_eq _ := rfl
  value_eq := by
    intro k (it : JournalIterator κ ν) hcursor
    obtain ⟨v, hv⟩ := Option.isSome_iff_exists.mp (it.listed k hcursor)
    show it.entries.lookup k = some it.value
    rw [JournalIterator.value, hcursor, Option.bind_some, hv, Option.getD_some]

end Journal

end CosUserspace
