import CosUserspace.Epistle.Table

/-!
# The epistle is a map

Called one after the other, `add` and `get` treat the table as the map from each key to the value last added for it: `Represents` ties a table to the history of its `add` calls, every `add` keeps it, and `get` reads it.
-/

namespace CosUserspace

namespace Epistle

variable {V : Type} {capacity : Nat} [NeZero capacity]

/-- The calls of a history one after the other, each within `capacity_` probes, and what they return. -/
def addAll : List (Int32 × V) → Epistle V capacity → Except Stop (List Bool × Epistle V capacity)
  | [], e => .ok ([], e)
  | (key, value) :: calls, e =>
    match e.add capacity key value with
    | .error stop => .error stop
    | .ok (returned, e) => (addAll calls e).map fun (rest, e) => (returned :: rest, e)

/-- The table holds the keys that were written, well placed and with the value of the last write. -/
structure Represents (writes : List (Int32 × V)) (e : Epistle V capacity) : Prop where
  placed : WellPlaced hash e.occ
  value : ∀ idx key, e.occ idx = some key → lastValue writes key = some (e.table idx).value
  mem : ∀ key ∈ writes.map Prod.fst, ∃ idx, e.occ idx = some key

namespace Represents

variable {writes : List (Int32 × V)} {e : Epistle V capacity} {key : Int32} {value : V} {idx : Fin capacity}
  {result : Bool × Epistle V capacity}

theorem init [Inhabited V] : Represents [] (Epistle.init : Epistle V capacity) where
  placed := by
    rw [occ_init]
    exact .empty
  value idx key h := by simp at h
  mem := by simp

theorem written (h : Represents writes e) (hslot : e.occ idx = some key) : key ∈ writes.map Prod.fst := by
  rw [← lastValue_isSome, h.value idx key hslot]
  rfl

theorem put (h : Represents writes e) (hkey : key ≠ 0) (value : V) {i : Nat} (hends : Ends hash e.occ key i) :
    Represents (writes ++ [(key, value)]) (e.put (probe (hash key) i) key value) := by
  constructor
  case placed =>
    rw [occ_put hkey]
    rcases hends.stops with hfree | hfound
    · exact h.placed.insert hends.reaches hfree
    · rw [← hfound, Function.update_eq_self]
      exact h.placed
  case value =>
    intro slot other hslot
    rw [occ_put hkey] at hslot
    by_cases heq : slot = probe (hash key) i
    · subst heq
      rw [Function.update_self, Option.some.injEq] at hslot
      subst hslot
      simp [lastValue_concat_self, Epistle.put]
    · rw [Function.update_of_ne heq] at hslot
      have hne : other ≠ key := by
        rintro rfl
        exact heq (h.placed.probe_eq hslot hends).symm
      simpa [lastValue_concat_of_ne value hne, Epistle.put, heq] using h.value slot other hslot
  case mem =>
    intro other hmem
    rw [occ_put hkey]
    by_cases hother : other = key
    · subst hother
      exact ⟨_, Function.update_self ..⟩
    · have hold : other ∈ writes.map Prod.fst := by simpa [hother] using hmem
      obtain ⟨slot, hslot⟩ := h.mem other hold
      have hne : slot ≠ probe (hash key) i := by
        rintro rfl
        rcases hends.stops with hstop | hstop
        · simp [hstop] at hslot
        · exact hother (Option.some.inj (hslot.symm.trans hstop))
      exact ⟨slot, (Function.update_of_ne hne ..).trans hslot⟩

/-- `add` writes its entry and returns true, when a slot is empty or has its key already. -/
theorem add (h : Represents writes e) (hkey : key ≠ 0) (value : V)
    (hroom : e.occ idx = none ∨ e.occ idx = some key) :
    ∃ i, Ends hash e.occ key i ∧ e.add capacity key value = .ok (true, e.put (probe (hash key) i) key value) ∧
      Represents (writes ++ [(key, value)]) (e.put (probe (hash key) i) key value) := by
  obtain ⟨i, hi, hends⟩ := exists_ends hash hroom
  exact ⟨i, hends, add_eq hkey value hends hi, h.put hkey value hends⟩

theorem exists_room_of_add (hadd : e.add capacity key value = .ok result) :
    ∃ idx, e.occ idx = none ∨ e.occ idx = some key := by
  by_contra hnone
  have hfull : ∀ idx, ∃ other, e.occ idx = some other ∧ other ≠ key :=
    fun idx => holds_other fun hidx => hnone ⟨idx, hidx⟩
  rw [Epistle.add] at hadd
  split at hadd
  · cases hadd
  · simp [addFrom_spins value hfull] at hadd

/-- `get` answers the last value written, or `{}` for a key that was not written. -/
theorem get [Inhabited V] (h : Represents writes e) (hkey : key ≠ 0)
    (hroom : e.occ idx = none ∨ e.occ idx = some key) :
    e.get key = .ok ((lastValue writes key).getD default) := by
  obtain ⟨i, hi, hends⟩ := exists_ends hash hroom
  rw [get_eq hkey hends hi]
  rcases hends.stops with hfree | hfound
  · have hnone : lastValue writes key = none := by
      rw [← Option.not_isSome_iff_eq_none, lastValue_isSome]
      intro hmem
      obtain ⟨slot, hslot⟩ := h.mem key hmem
      rw [h.placed.probe_eq hslot hends, hslot] at hfree
      cases hfree
    simp [hfree, hnone]
  · simp [hfound, h.value _ key hfound]

theorem exists_room (h : Represents writes e)
    (hcard : ((writes ++ [(key, value)]).map Prod.fst).toFinset.card ≤ capacity) :
    ∃ idx, e.occ idx = none ∨ e.occ idx = some key := by
  by_cases hmem : key ∈ writes.map Prod.fst
  · obtain ⟨idx, hidx⟩ := h.mem key hmem
    exact ⟨idx, .inr hidx⟩
  · have hfewer : (writes.map Prod.fst).toFinset.card < capacity := by
      rw [List.map_append, List.toFinset_append, Finset.union_comm] at hcard
      have hinsert : (insert key (writes.map Prod.fst).toFinset).card ≤ capacity := by simpa using hcard
      rw [Finset.card_insert_of_notMem (by simpa using hmem)] at hinsert
      exact hinsert
    obtain ⟨idx, hidx⟩ := h.placed.exists_empty (fun slot k hslot => List.mem_toFinset.mpr (h.written hslot)) hfewer
    exact ⟨idx, .inl hidx⟩

end Represents

theorem addAll_represents {calls before : List (Int32 × V)} {e : Epistle V capacity} (h : Represents before e)
    (hkeys : ∀ call ∈ calls, call.1 ≠ 0) (hcard : ((before ++ calls).map Prod.fst).toFinset.card ≤ capacity) :
    ∃ e', addAll calls e = .ok (List.replicate calls.length true, e') ∧ Represents (before ++ calls) e' := by
  induction calls generalizing before e with
  | nil => exact ⟨e, rfl, by simpa using h⟩
  | cons call calls ih =>
    obtain ⟨key, value⟩ := call
    obtain ⟨hkey, hrest⟩ := List.forall_mem_cons.mp hkeys
    rw [List.append_cons] at hcard ⊢
    have hcardFirst : ((before ++ [(key, value)]).map Prod.fst).toFinset.card ≤ capacity := by
      refine (Finset.card_le_card fun k hk => ?_).trans hcard
      rw [List.map_append, List.toFinset_append]
      exact Finset.mem_union_left _ hk
    obtain ⟨idx, hroom⟩ := h.exists_room hcardFirst
    obtain ⟨i, -, hadd, hnext⟩ := h.add hkey value hroom
    obtain ⟨e', hall, hrep⟩ := ih hnext hrest hcard
    exact ⟨e', by simp [addAll, hadd, hall, Except.map, List.replicate_succ], hrep⟩

/-- **The epistle is a map**: after any history of calls on at most `capacity_` keys every `add` has returned true, each key has one slot, `get` answers the last value added, and `{}` for other keys as long as a slot is empty; and while a slot stays empty a further `add` changes no other key. -/
theorem is_map [Inhabited V] {history : List (Int32 × V)} (hkeys : ∀ call ∈ history, call.1 ≠ 0)
    (hcard : (history.map Prod.fst).toFinset.card ≤ capacity) :
    ∃ e : Epistle V capacity, addAll history init = .ok (List.replicate history.length true, e) ∧
      (∀ idx idx', (e.table idx).key ≠ 0 → (e.table idx).key = (e.table idx').key → idx = idx') ∧
      (∀ key value, lastValue history key = some value → e.get key = .ok value) ∧
      ((∃ idx, (e.table idx).key = 0) → ∀ key ≠ 0, key ∉ history.map Prod.fst → e.get key = .ok default) ∧
      ∀ key value returned e', key ≠ 0 → e.add capacity key value = .ok (returned, e') →
        (∃ idx, (e'.table idx).key = 0) → ∀ other ≠ 0, other ≠ key → e'.get other = e.get other := by
  obtain ⟨e, hall, h⟩ := addAll_represents (.init : Represents [] (Epistle.init : Epistle V capacity)) hkeys hcard
  rw [List.nil_append] at h
  refine ⟨e, hall, fun idx idx' hzero hsame => ?_, fun key value hvalue => ?_, fun hfree key hkey habsent => ?_, ?_⟩
  · exact h.placed.unique (occ_eq_some.mpr ⟨rfl, hzero⟩) (occ_eq_some.mpr ⟨hsame.symm, hzero⟩)
  · obtain ⟨idx, hidx⟩ := h.mem key (lastValue_isSome.mp (by rw [hvalue]; rfl))
    rw [h.get (occ_eq_some.mp hidx).2 (.inr hidx), hvalue, Option.getD_some]
  · obtain ⟨idx, hidx⟩ := hfree
    have hnone : lastValue history key = none := by
      rwa [← Option.not_isSome_iff_eq_none, lastValue_isSome]
    rw [h.get hkey (.inl (occ_eq_none.mpr hidx)), hnone, Option.getD_none]
  · rintro key value returned e' hkey hadd ⟨idx, hidx⟩ other hother hne
    obtain ⟨slot, hroom⟩ := Represents.exists_room_of_add hadd
    obtain ⟨i, -, hput, hnext⟩ := h.add hkey value hroom
    obtain ⟨-, rfl⟩ := Prod.mk.inj (Except.ok.inj (hput.symm.trans hadd))
    have hafter : (e.put (probe (hash key) i) key value).occ idx = none := occ_eq_none.mpr hidx
    have hbefore : e.occ idx = none := by
      rw [occ_put hkey] at hafter
      by_cases heq : idx = probe (hash key) i
      · simp [heq] at hafter
      · rwa [Function.update_of_ne heq] at hafter
    rw [hnext.get hother (.inl hafter), h.get hother (.inl hbefore), lastValue_concat_of_ne value hne]

/-- Two keys with one hash and a repeated key, in a table of `512` slots. -/
theorem is_map_collision :
    ∃ e : Epistle UInt32 512, addAll [(-1, 7), (511, 8), (-1, 9)] init = .ok ([true, true, true], e) ∧
      e.get (-1) = .ok 9 ∧ e.get 511 = .ok 8 := by
  obtain ⟨e, hall, -, hget, -⟩ := @is_map UInt32 512 _ _ [(-1, 7), (511, 8), (-1, 9)] (by simp)
    ((List.toFinset_card_le _).trans (by decide))
  exact ⟨e, hall, hget (-1) 9 (by decide), hget 511 8 (by decide)⟩

end Epistle

end CosUserspace
