import CosUserspace.Kernel
import CosUserspace.Library.Probing

/-!
# The epistle

`lib/epistle.h`: a table in shared memory that maps thread ids to hints, open to every process that maps the file. An entry with key `0` is empty. The loops of `add` and `get` have no bound in the source; here they stop after a given number of probes.
-/

namespace CosUserspace

/-- `HASH_MAP_SIZE` -/
def hashMapSize : Nat := 4096

/-- `capacity_`, for entries of `sizeofEntry` bytes. -/
def capacityOf (sizeofEntry : Nat) : Nat := hashMapSize / sizeofEntry

instance : NeZero (capacityOf 8) := ⟨by decide⟩

structure Entry (V : Type) where
  key : Int32
  value : V
  deriving DecidableEq, Repr

structure Epistle (V : Type) (capacity : Nat) where
  table : Fin capacity → Entry V

namespace Epistle

variable {V : Type} {capacity : Nat}

/-- The mapped file after `memset`; `default` is what `{}` makes of the value type. -/
def init [Inhabited V] : Epistle V capacity := ⟨fun _ => ⟨0, default⟩⟩

/-- `key % capacity_`: the key is sign-extended to the 64 bits of a `size_t`. -/
def hash [NeZero capacity] (key : Int32) : Fin capacity := Fin.ofNat capacity key.toInt64.toUInt64.toNat

def setKey (idx : Fin capacity) (key : Int32) (e : Epistle V capacity) : Epistle V capacity :=
  ⟨Function.update e.table idx { e.table idx with key }⟩

def setValue (idx : Fin capacity) (value : V) (e : Epistle V capacity) : Epistle V capacity :=
  ⟨Function.update e.table idx { e.table idx with value }⟩

/-- `__sync_bool_compare_and_swap(&table_[idx].key, 0, key)` -/
def compareAndSwap (idx : Fin capacity) (key : Int32) (e : Epistle V capacity) : Bool × Epistle V capacity :=
  if (e.table idx).key = 0 then (true, e.setKey idx key) else (false, e)

/-- The first `if` of the loop of `add`; `none` is the `continue` in it. -/
def claim (idx : Fin capacity) (key : Int32) (e : Epistle V capacity) : Option (Epistle V capacity) :=
  if (e.table idx).key = 0 then
    match e.compareAndSwap idx key with
    | (false, _) => none
    | (true, e) => some e
  else some e

/-- The loop of `add` from `idx` on, for a number of probes. -/
def addFrom (key : Int32) (value : V) : Nat → Fin capacity → Epistle V capacity →
    Except Stop (Bool × Epistle V capacity)
  | 0, _, _ => .error .epistleSpins
  | probes + 1, idx, e =>
    match e.claim idx key with
    | none => addFrom key value probes (nextSlot idx) e
    | some e =>
      if (e.table idx).key ≠ key then addFrom key value probes (nextSlot idx) e
      else .ok (true, e.setValue idx value)

/-- The loop of `get` from `idx` on, for a number of probes. -/
def getFrom [Inhabited V] (key : Int32) (e : Epistle V capacity) : Nat → Fin capacity → Except Stop V
  | 0, _ => .error .epistleSpins
  | probes + 1, idx =>
    if (e.table idx).key = 0 then .ok default
    else if (e.table idx).key ≠ key then getFrom key e probes (nextSlot idx)
    else .ok (e.table idx).value

variable [NeZero capacity]

/-- `Epistle::add`, when it returns within `probes` probes. -/
def add (probes : Nat) (key : Int32) (value : V) (e : Epistle V capacity) :
    Except Stop (Bool × Epistle V capacity) :=
  if key = 0 then .error .assertKey else addFrom key value probes (hash key) e

/-- `Epistle::get`; after `capacity_` probes every slot has been passed. -/
def get [Inhabited V] (key : Int32) (e : Epistle V capacity) : Except Stop V :=
  if key = 0 then .error .assertKey else getFrom key e capacity (hash key)

/-! ### The table as slots and keys -/

omit [NeZero capacity] in
/-- The key in a slot, if the slot is not empty. -/
def occ (e : Epistle V capacity) (idx : Fin capacity) : Option Int32 :=
  if (e.table idx).key = 0 then none else some (e.table idx).key

def put (idx : Fin capacity) (key : Int32) (value : V) (e : Epistle V capacity) : Epistle V capacity :=
  ⟨Function.update e.table idx ⟨key, value⟩⟩

section

omit [NeZero capacity]

variable {e : Epistle V capacity} {idx : Fin capacity} {key : Int32}

theorem occ_eq_none : e.occ idx = none ↔ (e.table idx).key = 0 := by
  simp [occ]

theorem occ_eq_some : e.occ idx = some key ↔ (e.table idx).key = key ∧ key ≠ 0 := by
  unfold occ
  split
  · rename_i hzero
    rw [hzero]
    exact ⟨fun h => (by cases h), fun h => absurd h.1.symm h.2⟩
  · rename_i hzero
    rw [Option.some.injEq]
    exact ⟨fun h => ⟨h, h ▸ hzero⟩, And.left⟩

theorem occ_put (hkey : key ≠ 0) (value : V) : (e.put idx key value).occ = Function.update e.occ idx (some key) := by
  funext slot
  by_cases hslot : slot = idx
  · subst hslot
    simp [occ, put, hkey]
  · simp [occ, put, hslot]

theorem occ_setKey (hkey : key ≠ 0) : (e.setKey idx key).occ = Function.update e.occ idx (some key) := by
  funext slot
  by_cases hslot : slot = idx
  · subst hslot
    simp [occ, setKey, hkey]
  · simp [occ, setKey, hslot]

@[simp] theorem occ_setValue (value : V) : (e.setValue idx value).occ = e.occ := by
  funext slot
  by_cases hslot : slot = idx
  · subst hslot
    simp [occ, setValue]
  · simp [occ, setValue, hslot]

@[simp] theorem occ_init [Inhabited V] : (init : Epistle V capacity).occ = fun _ => none := by
  funext slot
  simp [occ, init]

end

/-! ### The loops are searches -/

variable {e : Epistle V capacity} {key : Int32} {i : Nat}

/-- The loop of `add` passes the slots that hold other keys. -/
theorem addFrom_passes (value : V) (hreach : Reaches hash e.occ key i) (probes : Nat) :
    addFrom key value (probes + i) (hash key) e = addFrom key value probes (probe (hash key) i) e := by
  induction i generalizing probes with
  | zero => simp
  | succ i ih =>
    obtain ⟨other, hother, hne⟩ := hreach i (Nat.lt_succ_self i)
    obtain ⟨hkey, hzero⟩ := occ_eq_some.mp hother
    have hbefore : Reaches hash e.occ key i := fun j hj => hreach j (Nat.lt_succ_of_lt hj)
    rw [← Nat.add_assoc, Nat.add_right_comm, ih hbefore]
    simp [addFrom, claim, hkey, hzero, hne]

/-- `add` puts its entry where the search for its key ends. -/
theorem add_eq (hkey : key ≠ 0) (value : V) {probes : Nat} (hends : Ends hash e.occ key i) (hi : i < probes) :
    e.add probes key value = .ok (true, e.put (probe (hash key) i) key value) := by
  obtain ⟨rest, rfl⟩ := Nat.exists_eq_add_of_lt hi
  have hsplit : i + rest + 1 = rest + 1 + i := by omega
  rw [add, if_neg hkey, hsplit, addFrom_passes value hends.reaches, addFrom]
  rcases hends.stops with hfree | hfound
  · have hzero := occ_eq_none.mp hfree
    simp [claim, compareAndSwap, hzero, setKey, setValue, put]
  · obtain ⟨hsame, -⟩ := occ_eq_some.mp hfound
    simp [claim, hsame, hkey, setValue, put]

theorem getFrom_passes [Inhabited V] (hreach : Reaches hash e.occ key i) (probes : Nat) :
    e.getFrom key (probes + i) (hash key) = e.getFrom key probes (probe (hash key) i) := by
  induction i generalizing probes with
  | zero => simp
  | succ i ih =>
    obtain ⟨other, hother, hne⟩ := hreach i (Nat.lt_succ_self i)
    obtain ⟨hkey, hzero⟩ := occ_eq_some.mp hother
    have hbefore : Reaches hash e.occ key i := fun j hj => hreach j (Nat.lt_succ_of_lt hj)
    rw [← Nat.add_assoc, Nat.add_right_comm, ih hbefore]
    simp [getFrom, hkey, hzero, hne]

/-- `get` answers from the slot where the search for its key ends. -/
theorem get_eq [Inhabited V] (hkey : key ≠ 0) (hends : Ends hash e.occ key i) (hi : i < capacity) :
    e.get key = .ok (if e.occ (probe (hash key) i) = none then default else (e.table (probe (hash key) i)).value) := by
  obtain ⟨rest, hrest⟩ := Nat.exists_eq_add_of_lt hi
  have hwalk : ∀ probes, probes = rest + 1 + i →
      e.getFrom key probes (hash key) = e.getFrom key (rest + 1) (probe (hash key) i) := by
    rintro _ rfl
    exact getFrom_passes hends.reaches (rest + 1)
  rw [get, if_neg hkey, hwalk capacity (by omega), getFrom]
  rcases hends.stops with hfree | hfound
  · rw [if_pos (occ_eq_none.mp hfree), if_pos hfree]
  · obtain ⟨hsame, -⟩ := occ_eq_some.mp hfound
    simp [hsame, hkey, hfound]

/-- Without an empty slot the search for an absent key goes round for ever. -/
theorem addFrom_spins (value : V) (hfull : ∀ idx, ∃ other, e.occ idx = some other ∧ other ≠ key) (probes : Nat) :
    addFrom key value probes (hash key) e = .error .epistleSpins := by
  have hwalk := addFrom_passes (e := e) (i := probes) value (fun j _ => hfull (probe (hash key) j)) 0
  rw [Nat.zero_add] at hwalk
  exact hwalk

theorem getFrom_spins [Inhabited V] (hfull : ∀ idx, ∃ other, e.occ idx = some other ∧ other ≠ key) (probes : Nat) :
    e.getFrom key probes (hash key) = .error .epistleSpins := by
  have hwalk := getFrom_passes (e := e) (i := probes) (fun j _ => hfull (probe (hash key) j)) 0
  rw [Nat.zero_add] at hwalk
  exact hwalk

/-- `get` stops only at a key `0` or in the loop. -/
theorem get_error [Inhabited V] {stop : Stop} (herror : e.get key = .error stop) :
    stop = .assertKey ∨ stop = .epistleSpins := by
  have hloop : ∀ probes idx, e.getFrom key probes idx = .error stop → stop = .epistleSpins := by
    intro probes
    induction probes with
    | zero => exact fun _ h => (Except.error.inj h).symm
    | succ probes ih =>
      intro idx h
      rw [getFrom] at h
      split at h
      · cases h
      · split at h
        · exact ih _ h
        · cases h
  unfold get at herror
  split at herror
  · exact .inl (Except.error.inj herror).symm
  · exact .inr (hloop _ _ herror)

end Epistle

end CosUserspace
