import CosUserspace.Epistle.Concurrent
import Mathlib.Data.Fintype.EquivFin

/-!
# Whether the probe loops end

The loops of `add` and `get` end at an empty slot or at a slot that holds their key. Entries are never removed, so the empty slots of the shared table only get fewer, with every call that claims one: the loops end for every key as long as no call has claimed the last empty slot, and go round for ever for the absent keys afterwards. A call of `add` that runs without others in between does what `Epistle.add` says, and `capacity_` of them with different keys leave no slot empty.
-/

namespace CosUserspace

namespace Epistle

variable {V : Type} {capacity : Nat} [NeZero capacity] {e : Epistle V capacity} {key : Int32}

/-- The loop of `add` gets to its `return`. -/
def AddEnds (e : Epistle V capacity) (key : Int32) (value : V) : Prop :=
  ∃ probes result, e.add probes key value = .ok result

/-- The loop of `get` gets to a `return`. -/
def GetEnds [Inhabited V] (e : Epistle V capacity) (key : Int32) : Prop :=
  ∃ probes value, e.getFrom key probes (hash key) = .ok value

/-- Every loop on this table ends, for present and for absent keys. -/
def LoopsEnd [Inhabited V] (e : Epistle V capacity) : Prop :=
  ∀ key ≠ 0, (∀ value, e.AddEnds key value) ∧ e.GetEnds key

theorem addEnds_iff (hkey : key ≠ 0) (value : V) :
    e.AddEnds key value ↔ ∃ idx, e.occ idx = none ∨ e.occ idx = some key := by
  constructor
  · intro hends
    obtain ⟨probes, result, hadd⟩ := hends
    by_contra hroom
    rw [add, if_neg hkey, addFrom_spins value fun idx => holds_other fun hidx => hroom ⟨idx, hidx⟩] at hadd
    cases hadd
  · intro hroom
    obtain ⟨idx, hidx⟩ := hroom
    obtain ⟨i, hi, hends⟩ := exists_ends hash hidx
    exact ⟨capacity, _, add_eq hkey value hends hi⟩

theorem getEnds_iff [Inhabited V] (hkey : key ≠ 0) :
    e.GetEnds key ↔ ∃ idx, e.occ idx = none ∨ e.occ idx = some key := by
  constructor
  · intro hends
    obtain ⟨probes, value, hget⟩ := hends
    by_contra hroom
    rw [getFrom_spins fun idx => holds_other fun hidx => hroom ⟨idx, hidx⟩] at hget
    cases hget
  · intro hroom
    obtain ⟨idx, hidx⟩ := hroom
    obtain ⟨i, hi, hends⟩ := exists_ends hash hidx
    have hget := get_eq hkey hends hi
    rw [get, if_neg hkey] at hget
    exact ⟨capacity, _, hget⟩

/-! ### Keys that differ -/

/-- As many different keys as there are positive numbers of 32 bits. -/
def keyOf (i : Nat) : Int32 := Int32.ofNat (i + 1)

theorem toInt_keyOf {i : Nat} (hi : i < hashMapSize + 1) : (keyOf i).toInt = i + 1 := by
  unfold hashMapSize at hi
  rw [keyOf, Int32.toInt_ofNat_of_lt (by omega)]
  rfl

theorem keyOf_ne_zero {i : Nat} (hi : i < hashMapSize + 1) : keyOf i ≠ 0 := by
  intro hzero
  have hint := toInt_keyOf hi
  rw [hzero, Int32.toInt_zero] at hint
  omega

theorem keyOf_inj {i j : Nat} (hi : i < hashMapSize + 1) (hj : j < hashMapSize + 1) (hsame : keyOf i = keyOf j) :
    i = j := by
  have hint := toInt_keyOf hi
  rw [hsame, toInt_keyOf hj] at hint
  omega

omit [NeZero capacity] in
/-- A slot for each of the first keys, and no slot for two of them. -/
theorem exists_slots {count : Nat} (hcount : count ≤ hashMapSize + 1)
    (hheld : ∀ i : Fin count, ∃ idx, e.occ idx = some (keyOf i)) :
    ∃ slot : Fin count → Fin capacity, Function.Injective slot ∧ ∀ i, e.occ (slot i) = some (keyOf i) := by
  choose slot hslot using hheld
  refine ⟨slot, fun i j hsame => ?_, hslot⟩
  have hkeys : keyOf i = keyOf j := Option.some.inj ((hslot i).symm.trans (hsame ▸ hslot j))
  exact Fin.ext (keyOf_inj (by omega) (by omega) hkeys)

omit [NeZero capacity] in
/-- A table of at most `HASH_MAP_SIZE` slots does not hold every key. -/
theorem exists_absent (hcapacity : capacity ≤ hashMapSize) (e : Epistle V capacity) :
    ∃ key ≠ 0, ∀ idx, e.occ idx ≠ some key := by
  by_contra hall
  have hheld : ∀ i : Fin (capacity + 1), ∃ idx, e.occ idx = some (keyOf i) := by
    intro i
    by_contra hnone
    exact hall ⟨keyOf i, keyOf_ne_zero (by omega), fun idx hidx => hnone ⟨idx, hidx⟩⟩
  obtain ⟨slot, hinj, -⟩ := exists_slots (Nat.succ_le_succ hcapacity) hheld
  have hcard := Fintype.card_le_of_injective slot hinj
  rw [Fintype.card_fin, Fintype.card_fin] at hcard
  omega

/-- The loops end for every key exactly when a slot is empty. -/
theorem loopsEnd_iff [Inhabited V] (hcapacity : capacity ≤ hashMapSize) :
    e.LoopsEnd ↔ ∃ idx, e.occ idx = none := by
  constructor
  · intro hends
    obtain ⟨key, hkey, habsent⟩ := exists_absent hcapacity e
    obtain ⟨idx, hfree | hfound⟩ := (getEnds_iff hkey).mp (hends key hkey).2
    · exact ⟨idx, hfree⟩
    · exact absurd hfound (habsent idx)
  · intro hroom key hkey
    obtain ⟨idx, hidx⟩ := hroom
    exact ⟨fun value => (addEnds_iff hkey value).mpr ⟨idx, .inl hidx⟩, (getEnds_iff hkey).mpr ⟨idx, .inl hidx⟩⟩

namespace Adds

variable {ι : Type} [DecidableEq ι] {call : ι → Int32 × V} {i : ι} {s s' : Adds ι V capacity}

/-! ### Which access takes an empty slot -/

omit [NeZero capacity] in
/-- An access fills the empty slot it swaps its key into, and no other access fills or empties a slot. -/
theorem Step.occ_cases (hstep : Step call s i s') :
    (∃ idx, s.pc i = .swap idx ∧ s.epistle.occ idx = none ∧ s'.epistle = s.epistle.setKey idx (call i).1 ∧
      s'.pc = Function.update s.pc i (.recheck idx)) ∨
    (∀ idx, s.pc i = .swap idx → s.epistle.occ idx ≠ none) ∧ s'.epistle.occ = s.epistle.occ := by
  obtain ⟨hrunning, rfl⟩ := hstep
  cases hpc : s.pc i with
  | test idx | recheck idx => exact .inr ⟨by simp, by simp [move, hpc]⟩
  | swap idx =>
    by_cases hfree : s.epistle.occ idx = none
    · have hzero := occ_eq_none.mp hfree
      exact .inl ⟨idx, rfl, hfree, by simp [move, hpc, compareAndSwap, hzero],
        by simp [move, hpc, compareAndSwap, hzero]⟩
    · have hzero : (s.epistle.table idx).key ≠ 0 := fun hzero => hfree (occ_eq_none.mpr hzero)
      refine .inr ⟨?_, by simp [move, hpc, compareAndSwap, hzero]⟩
      intro idx' hsame
      obtain rfl := AddPc.swap.inj hsame
      exact hfree
  | write idx => exact .inr ⟨by simp, by simp [move, hpc]⟩
  | returned => exact absurd hpc hrunning

omit [NeZero capacity] [DecidableEq ι] in
/-- If the next access of the call is a compare-and-swap on an empty slot, there is another empty slot. -/
def LeavesRoom (s : Adds ι V capacity) (i : ι) : Prop :=
  ∀ idx, s.pc i = .swap idx → s.epistle.occ idx = none → ∃ slot, slot ≠ idx ∧ s.epistle.occ slot = none

omit [NeZero capacity] in
theorem Step.room (hstep : Step call s i s') (hroom : ∃ idx, s.epistle.occ idx = none) (hleaves : LeavesRoom s i)
    (hkey : (call i).1 ≠ 0) : ∃ idx, s'.epistle.occ idx = none := by
  obtain ⟨idx, hpc, hfree, hclaimed, -⟩ | ⟨-, hsame⟩ := hstep.occ_cases
  · obtain ⟨slot, hne, hslot⟩ := hleaves idx hpc hfree
    refine ⟨slot, ?_⟩
    rw [hclaimed, occ_setKey hkey, Function.update_of_ne hne]
    exact hslot
  · rw [hsame]
    exact hroom

omit [NeZero capacity] in
theorem Step.leavesRoom (hstep : Step call s i s') (hroom : ∃ idx, s'.epistle.occ idx = none)
    (hkey : (call i).1 ≠ 0) : LeavesRoom s i := by
  intro idx hpc hfree
  obtain ⟨slot, hslot⟩ := hroom
  obtain ⟨idx', hpc', -, hclaimed, -⟩ | ⟨htaken, -⟩ := hstep.occ_cases
  · obtain rfl : idx' = idx := AddPc.swap.inj (hpc'.symm.trans hpc)
    rw [hclaimed, occ_setKey hkey] at hslot
    have hne : slot ≠ idx' := fun heq => by simp [heq] at hslot
    rw [Function.update_of_ne hne] at hslot
    exact ⟨slot, hne, hslot⟩
  · exact absurd hfree (htaken idx hpc)

/-! ### Calls and slots -/

omit [NeZero capacity] [DecidableEq ι] in
/-- The call has found or claimed a slot for its key. -/
def Seated (call : ι → Int32 × V) (s : Adds ι V capacity) (i : ι) : Prop :=
  match s.pc i with
  | .test _ | .swap _ => False
  | .recheck idx => s.epistle.occ idx = some (call i).1
  | .write _ | .returned => True

omit [NeZero capacity] in
theorem Step.pc_of_ne (hstep : Step call s i s') {j : ι} (hne : j ≠ i) : s'.pc j = s.pc j := by
  obtain ⟨-, rfl⟩ := hstep
  unfold move
  cases s.pc i with
  | test idx | recheck idx | write idx => exact Function.update_of_ne hne ..
  | swap idx =>
    dsimp only
    split <;> exact Function.update_of_ne hne ..
  | returned => rfl

omit [NeZero capacity] in
theorem Step.keeps (hstep : Step call s i s') (hkey : (call i).1 ≠ 0) {idx : Fin capacity} {k : Int32}
    (hslot : s.epistle.occ idx = some k) : s'.epistle.occ idx = some k := by
  obtain ⟨idx', -, hfree, hclaimed, -⟩ | ⟨-, hsame⟩ := hstep.occ_cases
  · have hne : idx ≠ idx' := fun heq => by simp [← heq, hslot] at hfree
    rw [hclaimed, occ_setKey hkey, Function.update_of_ne hne]
    exact hslot
  · rw [hsame]
    exact hslot

omit [NeZero capacity] in
theorem Step.seated (hstep : Step call s i s') (hkey : (call i).1 ≠ 0) {j : ι} (hseated : Seated call s j) :
    Seated call s' j := by
  by_cases hj : j = i
  · subst hj
    obtain ⟨hrunning, rfl⟩ := hstep
    unfold Seated at hseated ⊢
    cases hpc : s.pc j with
    | test idx | swap idx => simp [hpc] at hseated
    | recheck idx =>
      have hown : (s.epistle.table idx).key = (call j).1 := (occ_eq_some.mp (by simpa [hpc] using hseated)).1
      simp [move, hpc, hown]
    | write idx => simp [move, hpc]
    | returned => exact absurd hpc hrunning
  · unfold Seated at hseated ⊢
    rw [hstep.pc_of_ne hj]
    cases hpc : s.pc j with
    | test idx | swap idx => simp [hpc] at hseated
    | recheck idx => exact hstep.keeps hkey (by simpa [hpc] using hseated)
    | write idx | returned => trivial

open Classical in
/-- No more slots are filled than calls have a slot. -/
theorem filled_le_seated [Inhabited V] (hkeys : ∀ i, (call i).1 ≠ 0) {moves : List ι}
    (hrun : Runs (Step call) (init call) moves s) :
    (Finset.univ.filter fun idx => s.epistle.occ idx ≠ none).card ≤ (moves.toFinset.filter (Seated call s)).card := by
  refine hrun.invariant_history (P := fun moves s => (Finset.univ.filter fun idx => s.epistle.occ idx ≠ none).card ≤
    (moves.toFinset.filter (Seated call s)).card) (by simp [init]) ?_
  intro moves s i s' hle hstep
  have hmore : moves.toFinset.filter (Seated call s) ⊆ (moves ++ [i]).toFinset.filter (Seated call s') := by
    intro j hj
    rw [Finset.mem_filter, List.mem_toFinset] at hj ⊢
    exact ⟨List.mem_append_left _ hj.1, hstep.seated (hkeys i) hj.2⟩
  obtain ⟨idx, hpc, hfree, hclaimed, hnext⟩ | ⟨-, hsame⟩ := hstep.occ_cases
  · have hseat : i ∈ (moves ++ [i]).toFinset.filter (Seated call s') := by
      rw [Finset.mem_filter, Seated, hnext, Function.update_self, hclaimed, occ_setKey (hkeys i)]
      simp
    have hnew : i ∉ moves.toFinset.filter (Seated call s) := by
      rw [Finset.mem_filter, Seated, hpc]
      exact fun hmem => hmem.2
    have hfilled : (Finset.univ.filter fun slot => s'.epistle.occ slot ≠ none) =
        insert idx (Finset.univ.filter fun slot => s.epistle.occ slot ≠ none) := by
      ext slot
      rw [hclaimed, occ_setKey (hkeys i)]
      by_cases heq : slot = idx <;> simp [heq]
    rw [hfilled, Finset.card_insert_of_notMem (by simp [hfree])]
    calc (Finset.univ.filter fun slot => s.epistle.occ slot ≠ none).card + 1
        ≤ (moves.toFinset.filter (Seated call s)).card + 1 := Nat.succ_le_succ hle
      _ = (insert i (moves.toFinset.filter (Seated call s))).card := (Finset.card_insert_of_notMem hnew).symm
      _ ≤ _ := Finset.card_le_card (Finset.insert_subset hseat hmore)
  · rw [hsame]
    exact hle.trans (Finset.card_le_card hmore)

/-- A slot stays empty as long as fewer calls than slots have begun, also when some of them are for one key. -/
theorem loopsEnd_of_few_calls [Inhabited V] (hcapacity : capacity ≤ hashMapSize) (hkeys : ∀ i, (call i).1 ≠ 0)
    {moves : List ι} (hrun : Runs (Step call) (init call) moves s) (hfew : moves.toFinset.card < capacity) :
    s.epistle.LoopsEnd := by
  classical
  apply (loopsEnd_iff hcapacity).mpr
  by_contra hfull
  have hall : (Finset.univ.filter fun idx => s.epistle.occ idx ≠ none) = Finset.univ :=
    Finset.filter_true_of_mem fun idx _ hidx => hfull ⟨idx, hidx⟩
  have hle := (filled_le_seated hkeys hrun).trans (Finset.card_filter_le _ _)
  rw [hall, Finset.card_univ, Fintype.card_fin] at hle
  omega

/-- **The probe loops end until the table is full**: along a run of calls, every loop ends for every key on every table reached if and only if no access of the run fills the last empty slot. -/
theorem loops_end_iff [Inhabited V] {sizeofEntry : Nat} [NeZero (capacityOf sizeofEntry)]
    (hkeys : ∀ i, (call i).1 ≠ 0) (moves : List ι) :
    (∀ (before : List ι) (s : Adds ι V (capacityOf sizeofEntry)), before <+: moves →
        Runs (Step call) (init call) before s → s.epistle.LoopsEnd) ↔
      ∀ before i (s s' : Adds ι V (capacityOf sizeofEntry)), before ++ [i] <+: moves →
        Runs (Step call) (init call) before s → Step call s i s' → LeavesRoom s i := by
  have hcapacity : capacityOf sizeofEntry ≤ hashMapSize := Nat.div_le_self ..
  have hstart : ∃ idx, (init call : Adds ι V (capacityOf sizeofEntry)).epistle.occ idx = none :=
    ⟨0, by simp [init]⟩
  exact Runs.forall_prefix_iff hstart
    (fun s hroom => (loopsEnd_iff hcapacity).mpr hroom)
    (fun s i s' hroom hstep hleaves => hstep.room hroom hleaves (hkeys i))
    (fun s i s' _ hstep hends => hstep.leavesRoom ((loopsEnd_iff hcapacity).mp hends) (hkeys i))

/-- Two calls for one key take two slots at most, of `512`. -/
theorem loops_end_iff_rivals :
    ∃ s : Adds Bool UInt32 (capacityOf 8), Runs (Step rivals) (init rivals) [false, true, false, true] s ∧
      s.epistle.LoopsEnd := by
  have hkeys : ∀ i, (rivals i).1 ≠ 0 := by decide
  have hcapacity : capacityOf 8 ≤ hashMapSize := by decide
  obtain ⟨s, hs⟩ : ∃ s : Adds Bool UInt32 (capacityOf 8),
      moveAll rivals [false, true, false, true] (init rivals) = some s := ⟨_, rfl⟩
  have hrun := runs_of_moveAll hs
  refine ⟨s, hrun, (loops_end_iff hkeys _).mpr ?_ _ s (List.prefix_refl _) hrun⟩
  intro before i t t' _ hbefore hstep
  have hfew : (before ++ [i]).toFinset.card < capacityOf 8 :=
    (Finset.card_le_univ _).trans_lt (by decide)
  have hends := loopsEnd_of_few_calls hcapacity hkeys (hbefore.snoc hstep) hfew
  exact hstep.leavesRoom ((loopsEnd_iff hcapacity).mp hends) (hkeys i)

/-! ### A call that runs alone -/

omit [NeZero capacity] in
/-- The call finds another key in its slot and goes on to the next one. -/
theorem runs_pass {idx : Fin capacity} (hpc : s.pc i = .test idx) {other : Int32}
    (hslot : s.epistle.occ idx = some other) (hne : other ≠ (call i).1) :
    Runs (Step call) s [i, i] { s with pc := Function.update s.pc i (.test (nextSlot idx)) } := by
  obtain ⟨hkey, hzero⟩ := occ_eq_some.mp hslot
  refine .cons ⟨by simp [hpc], rfl⟩ (.cons ⟨?_, ?_⟩ .nil)
  · simp [move, hpc, hkey, hzero]
  · simp [move, hpc, hkey, hzero, hne]

theorem runs_passes {n : Nat} (hpc : s.pc i = .test (hash (call i).1))
    (hreach : Reaches hash s.epistle.occ (call i).1 n) :
    ∃ moves, Runs (Step call) s moves { s with pc := Function.update s.pc i (.test (probe (hash (call i).1) n)) } := by
  induction n with
  | zero =>
    refine ⟨[], ?_⟩
    rw [probe_zero, ← hpc, Function.update_eq_self]
    exact .nil
  | succ n ih =>
    obtain ⟨other, hslot, hne⟩ := hreach n (Nat.lt_succ_self n)
    obtain ⟨moves, hmoves⟩ := ih fun j hj => hreach j (Nat.lt_succ_of_lt hj)
    have hlast := runs_pass (s := { s with pc := Function.update s.pc i (.test (probe (hash (call i).1) n)) })
      (Function.update_self ..) hslot hne
    rw [nextSlot_probe, Function.update_idem] at hlast
    exact ⟨_, hmoves.append hlast⟩

omit [NeZero capacity] in
/-- The call ends at a slot that is empty or has its key. -/
theorem runs_write {idx : Fin capacity} (hkey : (call i).1 ≠ 0) (hpc : s.pc i = .test idx)
    (hstops : s.epistle.occ idx = none ∨ s.epistle.occ idx = some (call i).1) :
    ∃ moves, Runs (Step call) s moves
      { epistle := s.epistle.put idx (call i).1 (call i).2
        pc := Function.update s.pc i .returned
        writes := s.writes ++ [call i] } := by
  obtain hfree | hfound := hstops
  · have hzero := occ_eq_none.mp hfree
    refine ⟨[i, i, i, i], runs_of_moveAll ?_⟩
    simp [moveAll, move, hpc, hzero, compareAndSwap, setKey, setValue, put]
  · obtain ⟨hsame, -⟩ := occ_eq_some.mp hfound
    refine ⟨[i, i, i], runs_of_moveAll ?_⟩
    simp [moveAll, move, hpc, hsame, hkey, setValue, put]

/-- A call with no other in between does what `Epistle.add` does. -/
theorem runs_alone {n : Nat} (hkey : (call i).1 ≠ 0) (hpc : s.pc i = .test (hash (call i).1))
    (hends : Ends hash s.epistle.occ (call i).1 n) :
    ∃ moves, Runs (Step call) s moves
      { epistle := s.epistle.put (probe (hash (call i).1) n) (call i).1 (call i).2
        pc := Function.update s.pc i .returned
        writes := s.writes ++ [call i] } := by
  obtain ⟨moves, hmoves⟩ := runs_passes hpc hends.reaches
  obtain ⟨rest, hrest⟩ := runs_write
    (s := { s with pc := Function.update s.pc i (.test (probe (hash (call i).1) n)) }) hkey
    (Function.update_self ..) hends.stops
  rw [Function.update_idem] at hrest
  exact ⟨_, hmoves.append hrest⟩

/-- Calls one after the other, on no more keys than there are slots, each do what `Epistle.add` does. -/
theorem runs_in_order [Inhabited V] (call : Nat → Int32 × V) {count : Nat} (hkeys : ∀ i < count, (call i).1 ≠ 0)
    (hcount : count ≤ capacity) :
    ∃ (moves : List Nat) (s : Adds Nat V capacity), Runs (Step call) (init call) moves s ∧
      Represents ((List.range count).map call) s.epistle ∧ (∀ i < count, s.pc i = .returned) ∧
      ∀ i, count ≤ i → s.pc i = .test (hash (call i).1) := by
  induction count with
  | zero => exact ⟨[], init call, .nil, .init, fun i hi => absurd hi (Nat.not_lt_zero i), fun _ _ => rfl⟩
  | succ count ih =>
    obtain ⟨moves, s, hrun, hrep, hreturned, hwaiting⟩ := ih (fun i hi => hkeys i (by omega)) (by omega)
    have hkey := hkeys count (by omega)
    have hcard : ((List.map call (List.range count) ++ [call count]).map Prod.fst).toFinset.card ≤ capacity := by
      refine (List.toFinset_card_le _).trans ?_
      simpa using hcount
    obtain ⟨idx, hroom⟩ := hrep.exists_room hcard
    obtain ⟨n, -, hends⟩ := exists_ends hash hroom
    obtain ⟨rest, hrest⟩ := runs_alone hkey (hwaiting count (Nat.le_refl count)) hends
    refine ⟨_, _, hrun.append hrest, ?_, fun i hi => ?_, fun i hi => ?_⟩
    · rw [List.range_succ, List.map_append]
      exact hrep.put hkey _ hends
    · obtain hlt | rfl := Nat.lt_succ_iff_lt_or_eq.mp hi
      · show Function.update s.pc count .returned i = .returned
        rw [Function.update_of_ne (by omega)]
        exact hreturned i hlt
      · exact Function.update_self ..
    · show Function.update s.pc count .returned i = .test (hash (call i).1)
      rw [Function.update_of_ne (by omega)]
      exact hwaiting i (by omega)

/-- `capacity_` calls with different keys leave no slot empty, and no loop for a further key ends. -/
theorem fills [Inhabited V] (hcapacity : capacity ≤ hashMapSize) :
    ∃ (moves : List Nat) (s : Adds Nat V capacity),
      Runs (Step fun i => (keyOf i, default)) (init fun i => (keyOf i, default)) moves s ∧
      ∀ key, (∀ i < capacity, keyOf i ≠ key) → ∀ idx, ∃ other, s.epistle.occ idx = some other ∧ other ≠ key := by
  obtain ⟨moves, s, hrun, hrep, -⟩ := runs_in_order (fun i => (keyOf i, (default : V)))
    (fun i hi => keyOf_ne_zero (by omega)) (Nat.le_refl capacity)
  refine ⟨moves, s, hrun, fun key hkey => ?_⟩
  have hheld : ∀ i : Fin capacity, ∃ idx, s.epistle.occ idx = some (keyOf i) := by
    intro i
    apply hrep.mem
    simp only [List.map_map, List.mem_map, List.mem_range, Function.comp_apply]
    exact ⟨i, i.isLt, rfl⟩
  obtain ⟨slot, hinj, hslot⟩ := exists_slots (Nat.le_succ_of_le hcapacity) hheld
  intro idx
  obtain ⟨i, rfl⟩ := Finite.surjective_of_injective hinj idx
  exact ⟨keyOf i, hslot i, hkey i i.isLt⟩

/-- Calls for the keys from `1` to `512` fill the table of the epistle. A further `add`, for the key `513`, and a `get` for it never return. -/
theorem full_table_spins :
    ∃ (moves : List Nat) (s : Adds Nat UInt32 (capacityOf 8)),
      Runs (Step fun i => (keyOf i, 0)) (init fun i => (keyOf i, 0)) moves s ∧
      (∀ value probes, s.epistle.add probes 513 value = .error .epistleSpins) ∧
      (∀ probes, s.epistle.getFrom 513 probes (hash 513) = .error .epistleSpins) ∧ ¬ s.epistle.LoopsEnd := by
  obtain ⟨moves, s, hrun, hfull⟩ := fills (V := UInt32) (show capacityOf 8 ≤ hashMapSize by decide)
  have hothers := hfull 513 fun i hi hsame => by
    have hcapacity : capacityOf 8 = 512 := rfl
    have hlimit : hashMapSize = 4096 := rfl
    have hlast : i = 512 := keyOf_inj (by omega) (by omega) (hsame.trans rfl)
    omega
  refine ⟨moves, s, hrun, fun value probes => ?_, fun probes => getFrom_spins hothers probes, fun hends => ?_⟩
  · rw [add, if_neg (by decide)]
    exact addFrom_spins value hothers probes
  · obtain ⟨probes, value, hget⟩ := (hends 513 (by decide)).2
    rw [getFrom_spins hothers] at hget
    cases hget

end Adds

end Epistle

end CosUserspace
