import CosUserspace.Epistle.Map
import CosUserspace.Library.Runs

/-!
# Concurrent calls of `add`

Any number of calls run on one table, each a sequence of slot reads, compare-and-swaps and a value write, interleaved in any order. A call that loses its compare-and-swap goes on to the next slot without looking at the key of the winner. When that is its own key the key ends up in two slots; when no call loses to its own key, the table stays well placed and `get` answers the last value written.
-/

namespace CosUserspace

namespace Epistle

/-- The next access of a call of `add`. -/
inductive AddPc (capacity : Nat)
  /-- `if (table_[idx].key == 0)` -/
  | test (idx : Fin capacity)
  /-- `__sync_bool_compare_and_swap(&table_[idx].key, 0, key)` -/
  | swap (idx : Fin capacity)
  /-- `if (table_[idx].key != key)` -/
  | recheck (idx : Fin capacity)
  /-- `table_[idx].value = value` -/
  | write (idx : Fin capacity)
  | returned
  deriving DecidableEq

/-- The shared table, the program counter of each call, and the value writes made so far. -/
structure Adds (ι V : Type) (capacity : Nat) where
  epistle : Epistle V capacity
  pc : ι → AddPc capacity
  writes : List (Int32 × V)

namespace Adds

variable {ι V : Type} {capacity : Nat} [NeZero capacity]

/-- The empty table, and each call at the first slot of its loop. -/
def init [Inhabited V] (call : ι → Int32 × V) : Adds ι V capacity where
  epistle := .init
  pc := fun i => .test (hash (call i).1)
  writes := []

variable [DecidableEq ι]

omit [NeZero capacity] in
/-- The next access of the call `i`. -/
def move (call : ι → Int32 × V) (i : ι) (s : Adds ι V capacity) : Adds ι V capacity :=
  let (key, value) := call i
  match s.pc i with
  | .test idx =>
    let next := if (s.epistle.table idx).key = 0 then .swap idx else .recheck idx
    { s with pc := Function.update s.pc i next }
  | .swap idx =>
    match s.epistle.compareAndSwap idx key with
    | (false, _) => { s with pc := Function.update s.pc i (.test (nextSlot idx)) }
    | (true, epistle) => { s with epistle, pc := Function.update s.pc i (.recheck idx) }
  | .recheck idx =>
    let next := if (s.epistle.table idx).key ≠ key then .test (nextSlot idx) else .write idx
    { s with pc := Function.update s.pc i next }
  | .write idx =>
    { epistle := s.epistle.setValue idx value
      pc := Function.update s.pc i .returned
      writes := s.writes ++ [(key, value)] }
  | .returned => s

omit [NeZero capacity] in
/-- A call that has not returned makes its next access. -/
def Step (call : ι → Int32 × V) (s : Adds ι V capacity) (i : ι) (s' : Adds ι V capacity) : Prop :=
  s.pc i ≠ .returned ∧ s' = s.move call i

omit [NeZero capacity] in
/-- A step whose compare-and-swap, if it is one, does not find the key of its own call in the slot. -/
def CarefulStep (call : ι → Int32 × V) (s : Adds ι V capacity) (i : ι) (s' : Adds ι V capacity) : Prop :=
  Step call s i s' ∧ ∀ idx, s.pc i = .swap idx → (s.epistle.table idx).key ≠ (call i).1

/-! ### The invariant -/

/-- How far a call with this key has got in the table `occ`. -/
def At (occ : Fin capacity → Option Int32) (written : List Int32) (key : Int32) : AddPc capacity → Prop
  | .test idx | .swap idx => ∃ n, idx = probe (hash key) n ∧ Reaches hash occ key n
  | .recheck idx => (∃ n, idx = probe (hash key) n ∧ Reaches hash occ key n) ∧ occ idx ≠ none
  | .write idx => occ idx = some key
  | .returned => key ∈ written

structure Inv (call : ι → Int32 × V) (s : Adds ι V capacity) : Prop where
  placed : WellPlaced hash s.epistle.occ
  value : ∀ idx key v, s.epistle.occ idx = some key → lastValue s.writes key = some v →
    (s.epistle.table idx).value = v
  mem : ∀ key ∈ s.writes.map Prod.fst, ∃ idx, s.epistle.occ idx = some key
  calls : ∀ i, At s.epistle.occ (s.writes.map Prod.fst) (call i).1 (s.pc i)

theorem At.mono {occ occ' : Fin capacity → Option Int32} {written written' : List Int32} {key : Int32}
    {pc : AddPc capacity} (h : At occ written key pc)
    (hkeep : ∀ idx k, occ idx = some k → occ' idx = some k) (hwritten : written ⊆ written') :
    At occ' written' key pc := by
  cases pc with
  | test idx | swap idx =>
    obtain ⟨n, hidx, hreach⟩ := h
    exact ⟨n, hidx, hreach.mono hkeep⟩
  | recheck idx =>
    obtain ⟨⟨n, hidx, hreach⟩, hsome⟩ := h
    obtain ⟨k, hk⟩ := Option.ne_none_iff_exists'.mp hsome
    exact ⟨⟨n, hidx, hreach.mono hkeep⟩, by simp [hkeep idx k hk]⟩
  | write idx => exact hkeep idx key h
  | returned => exact hwritten h

namespace Inv

variable {call : ι → Int32 × V} {s : Adds ι V capacity} {i : ι} {idx : Fin capacity}

omit [DecidableEq ι] in
theorem init [Inhabited V] : Inv call (Adds.init call : Adds ι V capacity) where
  placed := by
    rw [Adds.init, occ_init]
    exact .empty
  value idx key v h := by simp [Adds.init] at h
  mem := by simp [Adds.init]
  calls i := ⟨0, (probe_zero _).symm, .zero⟩

theorem goto (h : Inv call s) {pc : AddPc capacity}
    (hpc : At s.epistle.occ (s.writes.map Prod.fst) (call i).1 pc) :
    Inv call { s with pc := Function.update s.pc i pc } where
  placed := h.placed
  value := h.value
  mem := h.mem
  calls j := by
    by_cases hj : j = i
    · subst hj
      simpa using hpc
    · simpa [hj] using h.calls j

/-- A slot that holds another key sends the call on to the next one. -/
theorem passes (h : Inv call s) (hreach : ∃ n, idx = probe (hash (call i).1) n ∧
      Reaches hash s.epistle.occ (call i).1 n) {other : Int32} (hslot : s.epistle.occ idx = some other)
    (hne : other ≠ (call i).1) : Inv call { s with pc := Function.update s.pc i (.test (nextSlot idx)) } := by
  obtain ⟨n, rfl, hreach⟩ := hreach
  exact h.goto ⟨n + 1, nextSlot_probe _ n, hreach.succ hslot hne⟩

theorem claim (h : Inv call s) (hkey : (call i).1 ≠ 0) (hpc : s.pc i = .swap idx)
    (hfree : s.epistle.occ idx = none) :
    Inv call { s with
      epistle := s.epistle.setKey idx (call i).1
      pc := Function.update s.pc i (.recheck idx) } := by
  have hcall := h.calls i
  rw [hpc] at hcall
  obtain ⟨n, rfl, hreach⟩ := hcall
  have hocc : (s.epistle.setKey (probe (hash (call i).1) n) (call i).1).occ =
      Function.update s.epistle.occ (probe (hash (call i).1) n) (some (call i).1) := occ_setKey hkey
  have hkeep : ∀ slot k, s.epistle.occ slot = some k →
      (s.epistle.setKey (probe (hash (call i).1) n) (call i).1).occ slot = some k := by
    intro slot k hslot
    have hne : slot ≠ probe (hash (call i).1) n := fun heq => by simp [heq, hfree] at hslot
    rw [hocc, Function.update_of_ne hne]
    exact hslot
  -- nothing was written for the key, so its slot owes no value
  have hnew : (call i).1 ∉ s.writes.map Prod.fst := fun hmem => by
    obtain ⟨slot, hslot⟩ := h.mem _ hmem
    have hends := h.placed.probe_eq hslot ⟨hreach, .inl hfree⟩
    simp [hends, hslot] at hfree
  have hplaced : Inv call { s with epistle := s.epistle.setKey (probe (hash (call i).1) n) (call i).1 } := by
    constructor
    case placed =>
      rw [hocc]
      exact h.placed.insert hreach hfree
    case value =>
      intro slot key v hslot hlast
      by_cases heq : slot = probe (hash (call i).1) n
      · have hsame : key = (call i).1 := by
          subst heq
          rw [hocc, Function.update_self, Option.some.injEq] at hslot
          exact hslot.symm
        exact absurd (lastValue_isSome.mp (by rw [hlast]; rfl)) (hsame ▸ hnew)
      · rw [hocc, Function.update_of_ne heq] at hslot
        simpa [setKey, heq] using h.value slot key v hslot hlast
    case mem =>
      intro key hmem
      obtain ⟨slot, hslot⟩ := h.mem key hmem
      exact ⟨slot, hkeep slot key hslot⟩
    case calls => exact fun j => (h.calls j).mono hkeep (List.Subset.refl _)
  refine hplaced.goto ⟨⟨n, rfl, hreach.mono hkeep⟩, ?_⟩
  simp [hocc]

theorem write (h : Inv call s) (hpc : s.pc i = .write idx) :
    Inv call
      { epistle := s.epistle.setValue idx (call i).2
        pc := Function.update s.pc i .returned
        writes := s.writes ++ [call i] } := by
  have hslot := h.calls i
  rw [hpc] at hslot
  have hwritten : Inv call { s with
      epistle := s.epistle.setValue idx (call i).2
      writes := s.writes ++ [call i] } := by
    constructor
    case placed =>
      rw [occ_setValue]
      exact h.placed
    case value =>
      intro slot key v hkey hlast
      rw [occ_setValue] at hkey
      by_cases heq : slot = idx
      · subst heq
        obtain rfl : key = (call i).1 := Option.some.inj (hkey.symm.trans hslot)
        rw [lastValue_concat_self, Option.some.injEq] at hlast
        simp [setValue, hlast]
      · have hne : key ≠ (call i).1 := fun hsame => heq (h.placed.unique (hsame ▸ hkey) hslot)
        rw [lastValue_concat_of_ne _ hne] at hlast
        simpa [setValue, heq] using h.value slot key v hkey hlast
    case mem =>
      intro key hmem
      rw [occ_setValue]
      rw [List.map_append, List.mem_append] at hmem
      rcases hmem with hold | hlast
      · exact h.mem key hold
      · obtain rfl : key = (call i).1 := by simpa using hlast
        exact ⟨idx, hslot⟩
    case calls =>
      intro j
      rw [occ_setValue]
      exact (h.calls j).mono (fun _ _ hsame => hsame) (by simp)
  apply hwritten.goto
  simp [At]

/-- Every access of a call that does not lose a compare-and-swap to its own key keeps the invariant. -/
theorem step (h : Inv call s) (hkeys : ∀ i, (call i).1 ≠ 0) {s' : Adds ι V capacity}
    (hstep : CarefulStep call s i s') : Inv call s' := by
  obtain ⟨⟨hrunning, rfl⟩, hcareful⟩ := hstep
  have hcall := h.calls i
  cases hpc : s.pc i with
  | test idx =>
    rw [hpc] at hcall
    simp only [move, hpc]
    by_cases hzero : (s.epistle.table idx).key = 0
    · rw [if_pos hzero]
      exact h.goto hcall
    · rw [if_neg hzero]
      exact h.goto ⟨hcall, fun hnone => hzero (occ_eq_none.mp hnone)⟩
  | swap idx =>
    simp only [move, hpc, compareAndSwap]
    by_cases hzero : (s.epistle.table idx).key = 0
    · rw [if_pos hzero]
      exact h.claim (hkeys i) hpc (occ_eq_none.mpr hzero)
    · rw [if_neg hzero]
      rw [hpc] at hcall
      exact h.passes hcall (occ_eq_some.mpr ⟨rfl, hzero⟩) (hcareful idx hpc)
  | recheck idx =>
    rw [hpc] at hcall
    obtain ⟨hreach, hsome⟩ := hcall
    obtain ⟨other, hother⟩ := Option.ne_none_iff_exists'.mp hsome
    have hkey := (occ_eq_some.mp hother).1
    simp only [move, hpc, hkey]
    by_cases hsame : other = (call i).1
    · rw [if_neg (not_not.mpr hsame)]
      exact h.goto (hsame ▸ hother)
    · rw [if_pos hsame]
      exact h.passes hreach hother hsame
  | write idx =>
    simp only [move, hpc]
    exact h.write hpc
  | returned => exact absurd hpc hrunning

end Inv

/-! ### Runs -/

omit [NeZero capacity] in
/-- The accesses `moves`, one after the other; `none` when a call is to move that has returned. -/
def moveAll (call : ι → Int32 × V) : List ι → Adds ι V capacity → Option (Adds ι V capacity)
  | [], s => some s
  | i :: moves, s => if s.pc i = .returned then none else moveAll call moves (s.move call i)

omit [NeZero capacity] in
theorem runs_of_moveAll {call : ι → Int32 × V} {moves : List ι} {s s' : Adds ι V capacity}
    (hsome : moveAll call moves s = some s') : Runs (Step call) s moves s' := by
  induction moves generalizing s with
  | nil =>
    obtain rfl := Option.some.inj hsome
    exact .nil
  | cons i moves ih =>
    rw [moveAll] at hsome
    split at hsome
    · cases hsome
    · rename_i hrunning
      exact .cons ⟨hrunning, rfl⟩ (ih hsome)

omit [NeZero capacity] in
/-- The next access of the call `i` is a compare-and-swap that finds the key of `i` in the slot. -/
def losesToOwnKey (call : ι → Int32 × V) (i : ι) (s : Adds ι V capacity) : Bool :=
  match s.pc i with
  | .swap idx => (s.epistle.table idx).key = (call i).1
  | _ => false

omit [NeZero capacity] in
/-- The accesses `moves` as before; `none` also when a call is to lose a compare-and-swap to its own key. -/
def carefulMoveAll (call : ι → Int32 × V) : List ι → Adds ι V capacity → Option (Adds ι V capacity)
  | [], s => some s
  | i :: moves, s =>
    if s.pc i = .returned ∨ s.losesToOwnKey call i then none else carefulMoveAll call moves (s.move call i)

omit [NeZero capacity] in
theorem runs_of_carefulMoveAll {call : ι → Int32 × V} {moves : List ι} {s s' : Adds ι V capacity}
    (hsome : carefulMoveAll call moves s = some s') : Runs (CarefulStep call) s moves s' := by
  induction moves generalizing s with
  | nil =>
    obtain rfl := Option.some.inj hsome
    exact .nil
  | cons i moves ih =>
    rw [carefulMoveAll] at hsome
    split at hsome
    · cases hsome
    · rename_i hcareful
      rw [not_or] at hcareful
      refine .cons ⟨⟨hcareful.1, rfl⟩, fun idx hpc hown => ?_⟩ (ih hsome)
      exact hcareful.2 (by simp [losesToOwnKey, hpc, hown])

/-- **When no call loses a compare-and-swap to its own key**, in every interleaving no key has two slots, and once all calls have returned `get` answers the last value written for each key. -/
theorem keys_unique [Inhabited V] {call : ι → Int32 × V} (hkeys : ∀ i, (call i).1 ≠ 0) {moves : List ι}
    {s : Adds ι V capacity} (hrun : Runs (CarefulStep call) (init call) moves s) :
    (∀ idx idx', (s.epistle.table idx).key ≠ 0 → (s.epistle.table idx).key = (s.epistle.table idx').key →
      idx = idx') ∧
    ((∀ i, s.pc i = .returned) →
      ∀ i, ∃ value, lastValue s.writes (call i).1 = some value ∧ s.epistle.get (call i).1 = .ok value) := by
  have h : Inv call s := hrun.invariant .init fun _ _ _ hinv hstep => hinv.step hkeys hstep
  refine ⟨fun idx idx' hzero hsame => ?_, fun hreturned i => ?_⟩
  · exact h.placed.unique (occ_eq_some.mpr ⟨rfl, hzero⟩) (occ_eq_some.mpr ⟨hsame.symm, hzero⟩)
  · have hcall := h.calls i
    rw [hreturned i] at hcall
    obtain ⟨value, hvalue⟩ := Option.isSome_iff_exists.mp (lastValue_isSome.mpr hcall)
    obtain ⟨idx, hidx⟩ := h.mem _ hcall
    obtain ⟨n, hn, hends⟩ := exists_ends hash (.inr hidx)
    have hslot := h.placed.probe_eq hidx hends
    refine ⟨value, hvalue, ?_⟩
    rw [get_eq (hkeys i) hends hn, hslot, hidx, if_neg (by simp), h.value idx _ value hidx hvalue]

/-- Two calls of `add` for the key `5`, and one for a key whose probing starts in the same slot. -/
def colliding : Fin 3 → Int32 × UInt32
  | 0 => (5, 1)
  | 1 => (517, 2)
  | 2 => (5, 3)

/-- Two calls find slot `5` empty, and the one for `517` loses it to the first call for `5`. The second call for `5` finds its key there before the first one has written the value. -/
theorem keys_unique_colliding :
    ∃ s : Adds (Fin 3) UInt32 512,
      Runs (CarefulStep colliding) (init colliding) [0, 1, 0, 1, 2, 0, 1, 2, 1, 0, 2, 1, 1] s ∧
      (∀ idx idx', (s.epistle.table idx).key ≠ 0 → (s.epistle.table idx).key = (s.epistle.table idx').key →
        idx = idx') ∧
      s.epistle.get 5 = .ok 3 ∧ s.epistle.get 517 = .ok 2 := by
  obtain ⟨s, hs⟩ : ∃ s : Adds (Fin 3) UInt32 512, carefulMoveAll colliding
      [0, 1, 0, 1, 2, 0, 1, 2, 1, 0, 2, 1, 1] (init colliding) = some s := ⟨_, rfl⟩
  have hfacts : ((carefulMoveAll colliding [0, 1, 0, 1, 2, 0, 1, 2, 1, 0, 2, 1, 1]
      (init colliding : Adds (Fin 3) UInt32 512)).map fun s => (s.pc 0, s.pc 1, s.pc 2, s.writes)) =
      some (.returned, .returned, .returned, [(5, 1), (5, 3), (517, 2)]) := rfl
  rw [hs] at hfacts
  simp only [Option.map_some, Option.some.injEq, Prod.mk.injEq] at hfacts
  obtain ⟨h0, h1, h2, hwrites⟩ := hfacts
  have hrun := runs_of_carefulMoveAll hs
  have hreturned : ∀ i, s.pc i = .returned := by
    intro i
    match i with
    | 0 => exact h0
    | 1 => exact h1
    | 2 => exact h2
  obtain ⟨hunique, hget⟩ := keys_unique (by decide) hrun
  obtain ⟨five, hfive, hget5⟩ := hget hreturned 0
  obtain ⟨other, hother, hget517⟩ := hget hreturned 1
  rw [hwrites] at hfive hother
  obtain rfl : 3 = five := Option.some.inj hfive
  obtain rfl : 2 = other := Option.some.inj hother
  exact ⟨s, hrun, hunique, hget5, hget517⟩

/-- Two calls of `add` for the key `5`, with the values `1` and `2`. -/
def rivals : Bool → Int32 × UInt32
  | false => (5, 1)
  | true => (5, 2)

/-- Both calls find slot `5` empty. The second one loses its compare-and-swap to the first, takes slot `6` for the same key, and its write, the last one, is lost. -/
theorem key_duplicated :
    ∃ s : Adds Bool UInt32 512,
      Runs (Step rivals) (init rivals) [false, true, false, true, false, false, true, true, true, true] s ∧
      (s.pc false = .returned ∧ s.pc true = .returned) ∧
      (s.epistle.table 5).key = 5 ∧ (s.epistle.table 6).key = 5 ∧
      lastValue s.writes 5 = some 2 ∧ s.epistle.get 5 = .ok 1 := by
  obtain ⟨s, hs⟩ : ∃ s : Adds Bool UInt32 512, moveAll rivals
      [false, true, false, true, false, false, true, true, true, true] (init rivals) = some s := ⟨_, rfl⟩
  have hfacts : ((moveAll rivals [false, true, false, true, false, false, true, true, true, true]
      (init rivals : Adds Bool UInt32 512)).map fun s => (s.pc false, s.pc true, (s.epistle.table 5).key,
        (s.epistle.table 6).key, lastValue s.writes 5, s.epistle.get 5)) =
      some (.returned, .returned, 5, 5, some 2, .ok 1) := rfl
  rw [hs] at hfacts
  simp only [Option.map_some, Option.some.injEq, Prod.mk.injEq] at hfacts
  obtain ⟨hfalse, htrue, h5, h6, hlast, hget⟩ := hfacts
  exact ⟨s, runs_of_moveAll hs, ⟨hfalse, htrue⟩, h5, h6, hlast, hget⟩

end Adds

end Epistle

end CosUserspace
