import CosUserspace.Epistle.Concurrent

/-!
# Calls of the epistle, access by access

A call of `add` or `get` is a sequence of accesses to slots that other threads may interleave with. What a call has found out about its own key stays true while the others only add keys and write values: `GetPc.At` and `Seeks` say what that is at each access, and `Touches` what the others do. The result of `get` is then the value of the entry at the access that reads it, or the default for a key that is absent at the access that finds an empty slot.
-/

namespace CosUserspace

namespace Epistle

variable {V : Type} {capacity : Nat} {e e' : Epistle V capacity} {key : Int32}

/-- The next access of a call of `get`. -/
inductive GetPc (capacity : Nat)
  /-- `if (table_[idx].key == 0)` -/
  | test (idx : Fin capacity)
  /-- `if (table_[idx].key != key)` -/
  | check (idx : Fin capacity)
  /-- `return table_[idx].value` -/
  | read (idx : Fin capacity)
  deriving DecidableEq

/-- One access of `get`: the call goes on or returns a value. -/
def getMove [Inhabited V] (key : Int32) (e : Epistle V capacity) : GetPc capacity → GetPc capacity ⊕ V
  | .test idx => if (e.table idx).key = 0 then .inr default else .inl (.check idx)
  | .check idx => if (e.table idx).key ≠ key then .inl (.test (nextSlot idx)) else .inl (.read idx)
  | .read idx => .inr (e.table idx).value

/-- One access of `add`. -/
def addMove (key : Int32) (value : V) (e : Epistle V capacity) : AddPc capacity → AddPc capacity × Epistle V capacity
  | .test idx => (if (e.table idx).key = 0 then .swap idx else .recheck idx, e)
  | .swap idx =>
    match e.compareAndSwap idx key with
    | (false, _) => (.test (nextSlot idx), e)
    | (true, e) => (.recheck idx, e)
  | .recheck idx => (if (e.table idx).key ≠ key then .test (nextSlot idx) else .write idx, e)
  | .write idx => (.returned, e.setValue idx value)
  | .returned => (.returned, e)

/-! ### Entries -/

/-- The key has an entry with this value. -/
def Holds (e : Epistle V capacity) (key : Int32) (value : V) : Prop :=
  ∃ idx, e.occ idx = some key ∧ (e.table idx).value = value

/-- The key is absent. -/
def Lacks (e : Epistle V capacity) (key : Int32) : Prop := ∀ idx, e.occ idx ≠ some key

/-- The empty slots are as the `memset` has left them. -/
def Blank [Inhabited V] (e : Epistle V capacity) : Prop := ∀ idx, e.occ idx = none → (e.table idx).value = default

theorem blank_init [Inhabited V] : (init : Epistle V capacity).Blank := fun _ _ => rfl

/-- From `e` to `e'` no key has left its slot, and only slots of `key` have changed. -/
structure Touches (key : Int32) (e e' : Epistle V capacity) : Prop where
  keeps : ∀ idx k, e.occ idx = some k → e'.occ idx = some k
  others : ∀ idx, e'.occ idx ≠ some key → e'.table idx = e.table idx

namespace Touches

theorem refl (key : Int32) (e : Epistle V capacity) : Touches key e e := ⟨fun _ _ h => h, fun _ _ => rfl⟩

theorem occ_eq (htouches : Touches key e e') {idx : Fin capacity} (hidx : e'.occ idx ≠ some key) :
    e'.occ idx = e.occ idx := by
  rw [occ, occ, htouches.others idx hidx]

theorem blank [Inhabited V] (htouches : Touches key e e') (hblank : e.Blank) : e'.Blank := by
  intro idx hnone
  have hidx : e'.occ idx ≠ some key := by simp [hnone]
  rw [htouches.others idx hidx]
  apply hblank
  rw [← htouches.occ_eq hidx, hnone]

variable {other : Int32} (hne : other ≠ key)

include hne in
theorem occ_of_ne (htouches : Touches key e e') {idx : Fin capacity} (hidx : e'.occ idx = some other) :
    e.occ idx = some other ∧ e'.table idx = e.table idx := by
  have hidx' : e'.occ idx ≠ some key := by simpa [hidx] using hne
  exact ⟨(htouches.occ_eq hidx').symm.trans hidx, htouches.others idx hidx'⟩

include hne in
theorem holds (htouches : Touches key e e') {value : V} (hholds : e.Holds other value) : e'.Holds other value := by
  obtain ⟨idx, hidx, hvalue⟩ := hholds
  have hidx' := htouches.keeps idx other hidx
  refine ⟨idx, hidx', ?_⟩
  rw [(htouches.occ_of_ne hne hidx').2, hvalue]

include hne in
theorem of_holds (htouches : Touches key e e') {value : V} (hholds : e'.Holds other value) : e.Holds other value := by
  obtain ⟨idx, hidx, hvalue⟩ := hholds
  obtain ⟨hidx', hsame⟩ := htouches.occ_of_ne hne hidx
  exact ⟨idx, hidx', hsame ▸ hvalue⟩

include hne in
theorem lacks (htouches : Touches key e e') (hlacks : e.Lacks other) : e'.Lacks other :=
  fun idx hidx => hlacks idx (htouches.occ_of_ne hne hidx).1

include hne in
theorem placed [NeZero capacity] (htouches : Touches key e e') (hplaced : KeyPlaced hash e.occ other) :
    KeyPlaced hash e'.occ other :=
  hplaced.mono htouches.keeps fun _ hidx => (htouches.occ_of_ne hne hidx).1

end Touches

theorem touches_setValue (hidx : e.occ idx = some key) (value : V) : Touches key e (e.setValue idx value) where
  keeps := by simp
  others slot hslot := by
    have hne : slot ≠ idx := fun heq => by simp [heq, hidx] at hslot
    simp [setValue, hne]

theorem touches_setKey {idx : Fin capacity} (hfree : e.occ idx = none) (hkey : key ≠ 0) :
    Touches key e (e.setKey idx key) where
  keeps slot k hslot := by
    have hne : slot ≠ idx := fun heq => by simp [heq, hfree] at hslot
    rw [occ_setKey hkey, Function.update_of_ne hne]
    exact hslot
  others slot hslot := by
    have hne : slot ≠ idx := fun heq => by simp [heq, occ_setKey hkey] at hslot
    simp [setKey, hne]

/-! ### What a call has found out -/

variable [NeZero capacity]

/-- The slot is one that the search for `key` gets to. -/
def OnPath (occ : Fin capacity → Option Int32) (key : Int32) (idx : Fin capacity) : Prop :=
  ∃ n, idx = probe (hash key) n ∧ Reaches hash occ key n

/-- A call of `get`. -/
def GetPc.At (occ : Fin capacity → Option Int32) (key : Int32) : GetPc capacity → Prop
  | .test idx => OnPath occ key idx
  | .check idx => OnPath occ key idx ∧ occ idx ≠ none
  | .read idx => occ idx = some key

/-- A call of `add` for a key that has an entry: it never gets to its compare-and-swap. -/
def Seeks (occ : Fin capacity → Option Int32) (key : Int32) : AddPc capacity → Prop
  | .test idx => OnPath occ key idx
  | .recheck idx => OnPath occ key idx ∧ occ idx ≠ none
  | .write idx => occ idx = some key
  | .swap _ | .returned => False

/-- A call of `add` for a key that no other call adds: the key is absent, or the call has made its entry. -/
def Claims (occ : Fin capacity → Option Int32) (key : Int32) : AddPc capacity → Prop
  | .test idx | .swap idx => OnPath occ key idx ∧ ∀ slot, occ slot ≠ some key
  | .recheck idx => OnPath occ key idx ∧ occ idx ≠ none ∧ (occ idx = some key ∨ ∀ slot, occ slot ≠ some key)
  | .write idx => occ idx = some key
  | .returned => False

section Frame

variable {occ occ' : Fin capacity → Option Int32} (hkeep : ∀ idx k, occ idx = some k → occ' idx = some k)

theorem OnPath.start (occ : Fin capacity → Option Int32) (key : Int32) : OnPath occ key (hash key) :=
  ⟨0, (probe_zero _).symm, .zero⟩

theorem OnPath.next {idx : Fin capacity} {other : Int32} (hpath : OnPath occ key idx) (hslot : occ idx = some other)
    (hne : other ≠ key) : OnPath occ key (nextSlot idx) := by
  obtain ⟨n, rfl, hreach⟩ := hpath
  exact ⟨n + 1, nextSlot_probe _ n, hreach.succ hslot hne⟩

theorem OnPath.absent {idx : Fin capacity} (hpath : OnPath occ key idx) (hplaced : KeyPlaced hash occ key)
    (hfree : occ idx = none) (slot : Fin capacity) : occ slot ≠ some key := by
  obtain ⟨n, rfl, hreach⟩ := hpath
  exact hplaced.absent hreach hfree slot

include hkeep

theorem OnPath.mono {idx : Fin capacity} (hpath : OnPath occ key idx) : OnPath occ' key idx := by
  obtain ⟨n, hidx, hreach⟩ := hpath
  exact ⟨n, hidx, hreach.mono hkeep⟩

omit [NeZero capacity] in
theorem occupied_mono {idx : Fin capacity} (hsome : occ idx ≠ none) : occ' idx ≠ none := by
  obtain ⟨k, hk⟩ := Option.ne_none_iff_exists'.mp hsome
  simp [hkeep idx k hk]

theorem GetPc.At.mono {pc : GetPc capacity} (hat : pc.At occ key) : pc.At occ' key := by
  cases pc with
  | test idx => exact OnPath.mono hkeep hat
  | check idx => exact ⟨OnPath.mono hkeep hat.1, occupied_mono hkeep hat.2⟩
  | read idx => exact hkeep idx key hat

theorem Seeks.mono {pc : AddPc capacity} (hseeks : Seeks occ key pc) : Seeks occ' key pc := by
  cases pc with
  | test idx => exact OnPath.mono hkeep hseeks
  | recheck idx => exact ⟨OnPath.mono hkeep hseeks.1, occupied_mono hkeep hseeks.2⟩
  | write idx => exact hkeep idx key hseeks
  | swap idx | returned => exact hseeks

theorem Claims.mono {pc : AddPc capacity} (hclaims : Claims occ key pc)
    (hold : ∀ slot, occ' slot = some key → occ slot = some key) : Claims occ' key pc := by
  cases pc with
  | test idx | swap idx => exact ⟨OnPath.mono hkeep hclaims.1, fun slot hslot => hclaims.2 slot (hold slot hslot)⟩
  | recheck idx =>
    obtain ⟨hpath, hsome, hkey⟩ := hclaims
    refine ⟨OnPath.mono hkeep hpath, occupied_mono hkeep hsome, ?_⟩
    exact hkey.imp (hkeep idx key) fun habsent slot hslot => habsent slot (hold slot hslot)
  | write idx => exact hkeep idx key hclaims
  | returned => exact hclaims

end Frame

theorem Holds.value_eq {value value' : V} (hplaced : KeyPlaced hash e.occ key) (hholds : e.Holds key value)
    (hholds' : e.Holds key value') : value = value' := by
  obtain ⟨idx, hidx, rfl⟩ := hholds
  obtain ⟨idx', hidx', rfl⟩ := hholds'
  rw [hplaced.unique hidx hidx']

/-! ### One access -/

theorem getMove_at [Inhabited V] (hplaced : KeyPlaced hash e.occ key) {pc : GetPc capacity} (hat : pc.At e.occ key) :
    (∃ pc', getMove key e pc = .inl pc' ∧ pc'.At e.occ key) ∨
    ∃ value, getMove key e pc = .inr value ∧ (e.Holds key value ∨ e.Lacks key ∧ value = default) := by
  cases pc with
  | test idx =>
    by_cases hfree : e.occ idx = none
    · refine .inr ⟨default, if_pos (occ_eq_none.mp hfree), .inr ⟨hat.absent hplaced hfree, rfl⟩⟩
    · exact .inl ⟨.check idx, if_neg fun hzero => hfree (occ_eq_none.mpr hzero), hat, hfree⟩
  | check idx =>
    obtain ⟨hpath, hsome⟩ := hat
    obtain ⟨other, hother⟩ := Option.ne_none_iff_exists'.mp hsome
    have hslot := (occ_eq_some.mp hother).1
    by_cases hkey : other = key
    · exact .inl ⟨.read idx, if_neg (not_not.mpr (hslot.trans hkey)), hkey ▸ hother⟩
    · refine .inl ⟨.test (nextSlot idx), if_pos (by rw [hslot]; exact hkey), hpath.next hother hkey⟩
  | read idx => exact .inr ⟨_, rfl, .inl ⟨idx, hat, rfl⟩⟩

/-- A call of `get` for a key with an entry returns its value. -/
theorem getMove_holds [Inhabited V] {value : V} (hplaced : KeyPlaced hash e.occ key) (hholds : e.Holds key value)
    {pc : GetPc capacity} (hat : pc.At e.occ key) :
    (∃ pc', getMove key e pc = .inl pc' ∧ pc'.At e.occ key) ∨ getMove key e pc = .inr value := by
  rcases getMove_at hplaced hat with hgoes | ⟨value', hreturns, hvalue | ⟨hlacks, -⟩⟩
  · exact .inl hgoes
  · exact .inr (by rw [hreturns, hvalue.value_eq hplaced hholds])
  · obtain ⟨idx, hidx, -⟩ := hholds
    exact absurd hidx (hlacks idx)

theorem addMove_seeks (value : V) (hplaced : KeyPlaced hash e.occ key) {old : V} (hholds : e.Holds key old)
    {pc : AddPc capacity} (hseeks : Seeks e.occ key pc) :
    (∃ pc', addMove key value e pc = (pc', e) ∧ Seeks e.occ key pc' ∧ pc' ≠ .returned) ∨
    ∃ e', addMove key value e pc = (.returned, e') ∧ Touches key e e' ∧ KeyPlaced hash e'.occ key ∧
      e'.Holds key value := by
  obtain ⟨slot, hslot, -⟩ := hholds
  cases pc with
  | test idx =>
    have hsome : e.occ idx ≠ none := fun hfree => hseeks.absent hplaced hfree slot hslot
    have hkey : (e.table idx).key ≠ 0 := fun hzero => hsome (occ_eq_none.mpr hzero)
    exact .inl ⟨.recheck idx, by rw [addMove, if_neg hkey], ⟨hseeks, hsome⟩, nofun⟩
  | recheck idx =>
    obtain ⟨hpath, hsome⟩ := hseeks
    obtain ⟨other, hother⟩ := Option.ne_none_iff_exists'.mp hsome
    have hkey := (occ_eq_some.mp hother).1
    by_cases hsame : other = key
    · exact .inl ⟨.write idx, by rw [addMove, if_neg (not_not.mpr (hkey.trans hsame))], hsame ▸ hother, nofun⟩
    · refine .inl ⟨.test (nextSlot idx), ?_, hpath.next hother hsame, nofun⟩
      rw [addMove, hkey, if_pos hsame]
  | write idx =>
    refine .inr ⟨_, rfl, touches_setValue hseeks value, by rw [occ_setValue]; exact hplaced, idx, ?_⟩
    rw [occ_setValue]
    exact ⟨hseeks, by simp [setValue]⟩
  | swap idx | returned => exact absurd hseeks id

/-- The key has no entry, or one whose value is still the default. -/
def Unset [Inhabited V] (e : Epistle V capacity) (key : Int32) : Prop :=
  ∀ idx, e.occ idx = some key → (e.table idx).value = default

theorem addMove_claims [Inhabited V] (value : V) (hkey : key ≠ 0) (hblank : e.Blank)
    (hplaced : KeyPlaced hash e.occ key) (hunset : e.Unset key) {pc : AddPc capacity} (hclaims : Claims e.occ key pc) :
    ∃ pc' e', addMove key value e pc = (pc', e') ∧ Touches key e e' ∧ KeyPlaced hash e'.occ key ∧
      ((Claims e'.occ key pc' ∧ e'.Unset key) ∨ (pc' = .returned ∧ e'.Holds key value)) := by
  cases pc with
  | test idx =>
    obtain ⟨hpath, habsent⟩ := hclaims
    refine ⟨_, e, rfl, .refl key e, hplaced, .inl ⟨?_, hunset⟩⟩
    split
    · exact ⟨hpath, habsent⟩
    · rename_i hzero
      exact ⟨hpath, fun hnone => hzero (occ_eq_none.mp hnone), .inr habsent⟩
  | swap idx =>
    obtain ⟨hpath, habsent⟩ := hclaims
    by_cases hfree : e.occ idx = none
    · have hocc : (e.setKey idx key).occ = Function.update e.occ idx (some key) := occ_setKey hkey
      have htouches := touches_setKey hfree hkey
      have hself : (e.setKey idx key).occ idx = some key := by rw [hocc, Function.update_self]
      have hplaced' : KeyPlaced hash (e.setKey idx key).occ key := by
        obtain ⟨n, rfl, hreach⟩ := hpath
        rw [hocc]
        exact .insert habsent hreach hfree
      refine ⟨.recheck idx, e.setKey idx key, ?_, htouches, hplaced', .inl ⟨⟨hpath.mono htouches.keeps, ?_, ?_⟩, ?_⟩⟩
      · simp [addMove, compareAndSwap, occ_eq_none.mp hfree]
      · simp [hself]
      · exact .inl hself
      · intro slot hslot
        obtain rfl := hplaced'.unique hself hslot
        simpa [setKey] using hblank idx hfree
    · obtain ⟨other, hother⟩ := Option.ne_none_iff_exists'.mp hfree
      have hzero : (e.table idx).key ≠ 0 := fun hzero => hfree (occ_eq_none.mpr hzero)
      refine ⟨.test (nextSlot idx), e, ?_, .refl key e, hplaced, .inl ⟨⟨?_, habsent⟩, hunset⟩⟩
      · simp [addMove, compareAndSwap, hzero]
      · exact hpath.next hother fun hsame => habsent idx (hsame ▸ hother)
  | recheck idx =>
    obtain ⟨hpath, hsome, hother⟩ := hclaims
    refine ⟨_, e, rfl, .refl key e, hplaced, .inl ⟨?_, hunset⟩⟩
    rcases hother with hself | habsent
    · rw [if_neg (not_not.mpr (occ_eq_some.mp hself).1)]
      exact hself
    · obtain ⟨other, hslot⟩ := Option.ne_none_iff_exists'.mp hsome
      have hne : other ≠ key := fun hsame => habsent idx (hsame ▸ hslot)
      rw [(occ_eq_some.mp hslot).1, if_pos hne]
      exact ⟨hpath.next hslot hne, habsent⟩
  | write idx =>
    refine ⟨.returned, _, rfl, touches_setValue hclaims value, by rw [occ_setValue]; exact hplaced, .inr ⟨rfl, idx, ?_⟩⟩
    rw [occ_setValue]
    exact ⟨hclaims, by simp [setValue]⟩
  | returned => exact absurd hclaims id

/-- `get` answers from the entry of its key, or `{}` if there is none. -/
theorem get_cases [Inhabited V] (hkey : key ≠ 0) (hplaced : KeyPlaced hash e.occ key) {slot : Fin capacity}
    (hfree : e.occ slot = none) :
    (∃ value, e.get key = .ok value ∧ e.Holds key value) ∨ e.get key = .ok default ∧ e.Lacks key := by
  obtain ⟨i, hi, hends⟩ := exists_ends hash (.inl hfree)
  rw [get_eq hkey hends hi]
  rcases hends.stops with hnone | hfound
  · exact .inr ⟨by rw [if_pos hnone], hplaced.absent hends.reaches hnone⟩
  · exact .inl ⟨_, by rw [if_neg (by simp [hfound])], _, hfound, rfl⟩

end Epistle

end CosUserspace
