import Mathlib.Algebra.Ring.Nat
import Mathlib.Data.Finset.Card
import Mathlib.Data.Fintype.Card
import Mathlib.Data.List.Basic
import Mathlib.Logic.Function.Basic

/-!
# Linear probing

A table of `n` slots arranged in a circle; a slot is empty or holds a key. A search for a key starts at the slot of its hash and goes from slot to slot past other keys, until it finds the key or an empty slot. A table is well placed when the search for each of its keys gets to the slot of that key. Then no key has two slots, and putting a key into the empty slot where its search ends keeps the table well placed.
-/

namespace CosUserspace

variable {n : Nat} {K V : Type*}

/-! ### The circle of slots -/

def nextSlot (slot : Fin n) : Fin n := ⟨(slot + 1) % n, Nat.mod_lt _ slot.pos⟩

def probe (start : Fin n) (i : Nat) : Fin n := ⟨(start + i) % n, Nat.mod_lt _ start.pos⟩

@[simp] theorem probe_zero (start : Fin n) : probe start 0 = start :=
  Fin.ext (Nat.mod_eq_of_lt start.isLt)

@[simp] theorem nextSlot_probe (start : Fin n) (i : Nat) : nextSlot (probe start i) = probe start (i + 1) :=
  Fin.ext (by simp [nextSlot, probe, Nat.add_assoc])

theorem exists_probe (start slot : Fin n) : ∃ i < n, probe start i = slot := by
  have hpos : 0 < n := start.pos
  refine ⟨(slot + (n - start)) % n, Nat.mod_lt _ hpos, Fin.ext ?_⟩
  have hsum : (start : Nat) + (slot + (n - start)) = slot + n := by omega
  simp [probe, hsum, Nat.mod_eq_of_lt slot.isLt]

/-! ### Searches -/

variable {hash : K → Fin n} {occ occ' : Fin n → Option K} {k : K} {i : Nat}

/-- The search for `k` gets to its `i`-th probe: the slots before hold other keys. -/
def Reaches (hash : K → Fin n) (occ : Fin n → Option K) (k : K) (i : Nat) : Prop :=
  ∀ j < i, ∃ other, occ (probe (hash k) j) = some other ∧ other ≠ k

/-- The search for `k` ends with its `i`-th probe. -/
structure Ends (hash : K → Fin n) (occ : Fin n → Option K) (k : K) (i : Nat) : Prop where
  reaches : Reaches hash occ k i
  stops : occ (probe (hash k) i) = none ∨ occ (probe (hash k) i) = some k

theorem Reaches.zero : Reaches hash occ k 0 :=
  fun j hj => absurd hj (Nat.not_lt_zero j)

theorem Reaches.succ {other : K} (hreach : Reaches hash occ k i)
    (hslot : occ (probe (hash k) i) = some other) (hne : other ≠ k) : Reaches hash occ k (i + 1) := by
  intro j hj
  rcases Nat.lt_succ_iff_lt_or_eq.mp hj with hlt | rfl
  · exact hreach j hlt
  · exact ⟨other, hslot, hne⟩

/-- Keys that stay where they are do not change where a search has got to. -/
theorem Reaches.mono (hreach : Reaches hash occ k i) (hkeep : ∀ slot k, occ slot = some k → occ' slot = some k) :
    Reaches hash occ' k i := by
  intro j hj
  obtain ⟨other, hslot, hne⟩ := hreach j hj
  exact ⟨other, hkeep _ _ hslot, hne⟩

/-- A slot where the search for `k` does not stop holds another key. -/
theorem holds_other {slot : Fin n} (hslot : ¬ (occ slot = none ∨ occ slot = some k)) :
    ∃ other, occ slot = some other ∧ other ≠ k := by
  rw [not_or] at hslot
  obtain ⟨other, hother⟩ := Option.ne_none_iff_exists'.mp hslot.1
  exact ⟨other, hother, fun heq => hslot.2 (heq ▸ hother)⟩

/-- A search ends within `n` probes when some slot is empty or holds its key. -/
theorem exists_ends (hash : K → Fin n) {slot : Fin n} (hslot : occ slot = none ∨ occ slot = some k) :
    ∃ i < n, Ends hash occ k i := by
  classical
  obtain ⟨d, hd, rfl⟩ := exists_probe (hash k) slot
  have hsome : ∃ i, occ (probe (hash k) i) = none ∨ occ (probe (hash k) i) = some k := ⟨d, hslot⟩
  exact ⟨Nat.find hsome, Nat.lt_of_le_of_lt (Nat.find_min' hsome hslot) hd,
    fun j hj => holds_other (Nat.find_min hsome hj), Nat.find_spec hsome⟩

/-! ### Well placed tables -/

/-- The search for `k` gets to every slot that holds `k`. -/
def KeyPlaced (hash : K → Fin n) (occ : Fin n → Option K) (k : K) : Prop :=
  ∀ slot, occ slot = some k → ∃ i, probe (hash k) i = slot ∧ Reaches hash occ k i

namespace KeyPlaced

/-- The search for a key in the table ends at the slot of the key. -/
theorem probe_eq (hplaced : KeyPlaced hash occ k) {slot : Fin n} (hslot : occ slot = some k)
    (hends : Ends hash occ k i) : probe (hash k) i = slot := by
  obtain ⟨d, rfl, hreach⟩ := hplaced slot hslot
  rcases Nat.lt_trichotomy i d with hlt | rfl | hgt
  · obtain ⟨other, hother, hne⟩ := hreach i hlt
    rcases hends.stops with hstop | hstop
    · simp [hstop] at hother
    · exact absurd (Option.some.inj (hother.symm.trans hstop)) hne
  · rfl
  · obtain ⟨other, hother, hne⟩ := hends.reaches d hgt
    exact absurd (Option.some.inj (hother.symm.trans hslot)) hne

theorem unique (hplaced : KeyPlaced hash occ k) {slot slot' : Fin n} (hslot : occ slot = some k)
    (hslot' : occ slot' = some k) : slot = slot' := by
  obtain ⟨i, rfl, hreach⟩ := hplaced slot hslot
  exact hplaced.probe_eq hslot' ⟨hreach, .inr hslot⟩

/-- A search that gets to an empty slot is for an absent key. -/
theorem absent (hplaced : KeyPlaced hash occ k) (hreach : Reaches hash occ k i)
    (hfree : occ (probe (hash k) i) = none) (slot : Fin n) : occ slot ≠ some k := by
  intro hslot
  rw [hplaced.probe_eq hslot ⟨hreach, .inl hfree⟩, hslot] at hfree
  cases hfree

/-- Keys that stay where they are stay placed, as long as `k` gets no new slot. -/
theorem mono (hplaced : KeyPlaced hash occ k) (hkeep : ∀ slot k, occ slot = some k → occ' slot = some k)
    (hold : ∀ slot, occ' slot = some k → occ slot = some k) : KeyPlaced hash occ' k := by
  intro slot hslot
  obtain ⟨i, hi, hreach⟩ := hplaced slot (hold slot hslot)
  exact ⟨i, hi, hreach.mono hkeep⟩

/-- An absent key is placed when its search takes the empty slot it gets to. -/
theorem insert (habsent : ∀ slot, occ slot ≠ some k) (hreach : Reaches hash occ k i)
    (hfree : occ (probe (hash k) i) = none) :
    KeyPlaced hash (Function.update occ (probe (hash k) i) (some k)) k := by
  intro slot hslot
  by_cases heq : slot = probe (hash k) i
  · refine ⟨i, heq.symm, hreach.mono fun slot' k' hslot' => ?_⟩
    have hne : slot' ≠ probe (hash k) i := fun h => by simp [h, hfree] at hslot'
    rw [Function.update_of_ne hne]
    exact hslot'
  · rw [Function.update_of_ne heq] at hslot
    exact absurd hslot (habsent slot)

end KeyPlaced

/-- The search for each key in the table gets to the slot of the key. -/
def WellPlaced (hash : K → Fin n) (occ : Fin n → Option K) : Prop :=
  ∀ slot k, occ slot = some k → ∃ i, probe (hash k) i = slot ∧ Reaches hash occ k i

namespace WellPlaced

theorem empty : WellPlaced hash fun _ => none :=
  fun _ _ h => by cases h

theorem key (hplaced : WellPlaced hash occ) (k : K) : KeyPlaced hash occ k :=
  fun slot hslot => hplaced slot k hslot

/-- The search for a key in the table ends at the slot of the key. -/
theorem probe_eq (hplaced : WellPlaced hash occ) {slot : Fin n} (hslot : occ slot = some k)
    (hends : Ends hash occ k i) : probe (hash k) i = slot :=
  (hplaced.key k).probe_eq hslot hends

theorem unique (hplaced : WellPlaced hash occ) {slot slot' : Fin n} (hslot : occ slot = some k)
    (hslot' : occ slot' = some k) : slot = slot' :=
  (hplaced.key k).unique hslot hslot'

theorem insert (hplaced : WellPlaced hash occ) (hreach : Reaches hash occ k i)
    (hfree : occ (probe (hash k) i) = none) :
    WellPlaced hash (Function.update occ (probe (hash k) i) (some k)) := by
  have hkeep : ∀ slot k', occ slot = some k' →
      Function.update occ (probe (hash k) i) (some k) slot = some k' := by
    intro slot k' hslot
    have hne : slot ≠ probe (hash k) i := fun heq => by simp [heq, hfree] at hslot
    rw [Function.update_of_ne hne]
    exact hslot
  intro slot k' hslot
  by_cases heq : slot = probe (hash k) i
  · subst heq
    rw [Function.update_self, Option.some.injEq] at hslot
    subst hslot
    exact ⟨i, rfl, hreach.mono hkeep⟩
  · rw [Function.update_of_ne heq] at hslot
    obtain ⟨d, hd, hreach'⟩ := hplaced slot k' hslot
    exact ⟨d, hd, hreach'.mono hkeep⟩

theorem exists_empty (hplaced : WellPlaced hash occ) {keys : Finset K}
    (hkeys : ∀ slot k, occ slot = some k → k ∈ keys) (hcard : keys.card < n) : ∃ slot, occ slot = none := by
  by_contra hfull
  have hsome : ∀ slot, ∃ k, occ slot = some k := fun slot =>
    Option.ne_none_iff_exists'.mp fun hnone => hfull ⟨slot, hnone⟩
  choose f hf using hsome
  have hinj : Function.Injective f := fun slot slot' heq =>
    hplaced.unique (hf slot) (heq ▸ hf slot')
  have hle := Finset.card_le_card_of_injOn (s := Finset.univ) (t := keys) f
    (fun slot _ => hkeys slot _ (hf slot)) hinj.injOn
  rw [Finset.card_univ, Fintype.card_fin] at hle
  omega

end WellPlaced

/-! ### What a history of writes leaves -/

/-- The value of the last write to `k`, in a history that ends with the latest write. -/
def lastValue [DecidableEq K] (writes : List (K × V)) (k : K) : Option V := writes.reverse.lookup k

section LastValue

variable [DecidableEq K]

@[simp] theorem lastValue_nil (k : K) : lastValue ([] : List (K × V)) k = none := rfl

theorem lastValue_concat_self (writes : List (K × V)) (k : K) (v : V) :
    lastValue (writes ++ [(k, v)]) k = some v := by
  simp [lastValue]

theorem lastValue_concat_of_ne {writes : List (K × V)} {k other : K} (v : V) (hne : other ≠ k) :
    lastValue (writes ++ [(k, v)]) other = lastValue writes other := by
  have hkey : (other == k) = false := by simpa using hne
  simp [lastValue, List.lookup_cons, hkey]

theorem lastValue_isSome {writes : List (K × V)} {k : K} :
    (lastValue writes k).isSome ↔ k ∈ writes.map Prod.fst := by
  induction writes using List.reverseRecOn with
  | nil => simp
  | append_singleton writes write ih =>
    obtain ⟨key, v⟩ := write
    by_cases hkey : k = key
    · subst hkey
      simp [lastValue_concat_self]
    · rw [lastValue_concat_of_ne v hkey, ih]
      simp [hkey]

end LastValue

end CosUserspace
