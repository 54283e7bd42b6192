import CosUserspace.Workload.PollRequest
import Mathlib.Algebra.BigOperators.Group.Finset.Basic
import Mathlib.Order.Bounds.Basic

/-!
# The service time of a request

`spin_for`, `HandleGet` and `HandleRange` of `workload/rocksdb.cpp`. A handler looks the request up, and if that took less CPU time than the service time of its kind, it spins for the rest. `spin_for` reads the clock in rounds and takes the length of a round off the duration, except for a round of 100 microseconds or more, in which the thread was preempted. Both clocks are inputs, and the loop is run on fuel, since it goes on for ever under a clock that stands still.
-/

namespace CosUserspace

namespace Workload

open Database

/-! ### spin_for -/

/-- The reads of the clock in one round: one for `a`, and 150 for `b`. -/
def roundReads : ℕ := 151

section Spin

variable (now : ℕ → UInt64)

/-- `t` in the round that begins with the read `i` of the clock. -/
def roundTime (i : ℕ) : UInt64 := now (i + 150) - now i

/-- What a round of length `t` leaves of the duration. -/
def afterRound (t duration : UInt64) : UInt64 :=
  if t < 100000 then if duration > t then duration - t else 0 else duration

/-- The number of the clock's next read when `spin_for` returns, or `none` if it goes on after `fuel` rounds. -/
def spinFor : (fuel i : ℕ) → (duration : UInt64) → Option ℕ
  | 0, i, duration => if duration > 0 then none else some i
  | fuel + 1, i, duration =>
    if duration > 0 then spinFor fuel (i + roundReads) (afterRound (roundTime now i) duration) else some i

/-- What the round that begins with the read `i` counts. -/
def countedTime (i : ℕ) : ℕ := if roundTime now i < 100000 then (roundTime now i).toNat else 0

/-- What `n` rounds count, from the read `i` on. -/
def counted (i n : ℕ) : ℕ := ∑ k ∈ Finset.range n, countedTime now (i + roundReads * k)

variable {now} {i n : ℕ} {duration : UInt64}

theorem countedTime_lt (i : ℕ) : countedTime now i < 100000 := by
  unfold countedTime
  split
  · rename_i hlt
    exact UInt64.lt_iff_toNat_lt.mp hlt
  · decide

theorem toNat_afterRound (i : ℕ) (duration : UInt64) :
    (afterRound (roundTime now i) duration).toNat = duration.toNat - countedTime now i := by
  unfold afterRound countedTime
  split
  · split
    · rename_i hmore
      exact UInt64.toNat_sub_of_le _ _ (UInt64.le_of_lt hmore)
    · rename_i hmore
      have hle : duration.toNat ≤ (roundTime now i).toNat := UInt64.le_iff_toNat_le.mp (UInt64.not_lt.mp hmore)
      rw [Nat.sub_eq_zero_of_le hle]
      rfl
  · exact (Nat.sub_zero _).symm

theorem counted_zero : counted now i 0 = 0 := rfl

/-- The last of the rounds apart. -/
theorem counted_succ : counted now i (n + 1) = counted now i n + countedTime now (i + roundReads * n) :=
  Finset.sum_range_succ ..

/-- The first of the rounds apart. -/
theorem counted_succ' : counted now i (n + 1) = countedTime now i + counted now (i + roundReads) n := by
  have hshift : ∀ k, i + roundReads * (k + 1) = i + roundReads + roundReads * k := fun k => by
    rw [Nat.mul_succ, Nat.add_comm (roundReads * k), Nat.add_assoc]
  unfold counted
  rw [Finset.sum_range_succ', Nat.add_comm]
  simp only [hshift, Nat.mul_zero, Nat.add_zero]

/-- The rounds that `spin_for` needs: the least number of them that counts the whole duration. -/
theorem isLeast_counted_succ (hpositive : 0 < duration.toNat) :
    IsLeast {n | duration.toNat ≤ counted now i n} (n + 1) ↔
      IsLeast {n | (afterRound (roundTime now i) duration).toNat ≤ counted now (i + roundReads) n} n := by
  have hshift : ∀ m, duration.toNat ≤ counted now i (m + 1) ↔
      (afterRound (roundTime now i) duration).toNat ≤ counted now (i + roundReads) m := fun m => by
    rw [counted_succ', toNat_afterRound]
    omega
  constructor
  · rintro ⟨hcounts, hleast⟩
    refine ⟨(hshift n).mp hcounts, fun m hm => ?_⟩
    exact Nat.le_of_succ_le_succ (hleast ((hshift m).mpr hm))
  · rintro ⟨hcounts, hleast⟩
    refine ⟨(hshift n).mpr hcounts, fun m hm => ?_⟩
    cases m with
    | zero =>
      have hnone : duration.toNat ≤ 0 := hm
      omega
    | succ m => exact Nat.succ_le_succ (hleast ((hshift m).mp hm))

theorem isLeast_counted_zero : IsLeast {n | duration.toNat ≤ counted now i n} 0 ↔ duration.toNat = 0 := by
  constructor
  · intro h
    exact Nat.le_zero.mp h.1
  · intro hzero
    exact ⟨hzero.le, fun m _ => Nat.zero_le m⟩

/-- Without anything left of the duration, no more rounds are needed. -/
theorem returned_iff {fuel j : ℕ} (hzero : ¬ duration > 0) :
    some i = some j ↔ ∃ n ≤ fuel, j = i + roundReads * n ∧ IsLeast {n | duration.toNat ≤ counted now i n} n := by
  have hnone : duration.toNat ≤ 0 := Nat.not_lt.mp fun hmore => hzero (UInt64.lt_iff_toNat_lt.mpr hmore)
  have hleast : IsLeast {n | duration.toNat ≤ counted now i n} 0 := isLeast_counted_zero.mpr (Nat.le_zero.mp hnone)
  constructor
  · intro hj
    exact ⟨0, Nat.zero_le _, (Option.some.inj hj).symm, hleast⟩
  · rintro ⟨n, -, rfl, hn⟩
    rw [hn.unique hleast]
    rfl

/-- `spin_for` returns after the first round at which the rounds have counted the duration. -/
theorem spinFor_eq_some {fuel j : ℕ} :
    spinFor now fuel i duration = some j ↔
      ∃ n ≤ fuel, j = i + roundReads * n ∧ IsLeast {n | duration.toNat ≤ counted now i n} n := by
  induction fuel generalizing i duration with
  | zero =>
    unfold spinFor
    split
    · rename_i hgoes
      have hmore : 0 < duration.toNat := UInt64.lt_iff_toNat_lt.mp hgoes
      constructor
      · intro hj
        cases hj
      · rintro ⟨n, hn, -, hleast⟩
        obtain rfl := Nat.le_zero.mp hn
        exact absurd (isLeast_counted_zero.mp hleast) (Nat.ne_of_gt hmore)
    · rename_i hzero
      exact returned_iff hzero
  | succ fuel ih =>
    unfold spinFor
    split
    · rename_i hgoes
      have hmore : 0 < duration.toNat := UInt64.lt_iff_toNat_lt.mp hgoes
      have hshift : ∀ n, i + roundReads + roundReads * n = i + roundReads * (n + 1) := fun n => by
        rw [Nat.mul_succ, Nat.add_comm (roundReads * n), Nat.add_assoc]
      rw [ih]
      constructor
      · rintro ⟨n, hn, rfl, hleast⟩
        exact ⟨n + 1, Nat.succ_le_succ hn, hshift n, (isLeast_counted_succ hmore).mpr hleast⟩
      · rintro ⟨n, hn, rfl, hleast⟩
        cases n with
        | zero => exact absurd (isLeast_counted_zero.mp hleast) (Nat.ne_of_gt hmore)
        | succ n =>
          exact ⟨n, Nat.le_of_succ_le_succ hn, (hshift n).symm, (isLeast_counted_succ hmore).mp hleast⟩
    · rename_i hzero
      exact returned_iff hzero

/-- Under a clock that does not go back, the rounds count no more than the time between the first read and the last. -/
theorem counted_le_elapsed (hmono : ∀ k l, k ≤ l → now k ≤ now l) (i n : ℕ) :
    (now i).toNat + counted now i n ≤ (now (i + roundReads * n - 1)).toNat ∨ n = 0 := by
  have hle : ∀ {a b : ℕ}, a ≤ b → (now a).toNat ≤ (now b).toNat := fun hab => UInt64.le_iff_toNat_le.mp (hmono _ _ hab)
  have hround : ∀ k, (now k).toNat + countedTime now k ≤ (now (k + 150)).toNat := by
    intro k
    have hlater := hle (Nat.le_add_right k 150)
    unfold countedTime
    split
    · have htime : (roundTime now k).toNat = (now (k + 150)).toNat - (now k).toNat :=
        UInt64.toNat_sub_of_le _ _ (hmono k (k + 150) (Nat.le_add_right k 150))
      omega
    · exact hlater
  have hlast : ∀ n, i + roundReads * (n + 1) - 1 = i + roundReads * n + 150 := fun n => by
    unfold roundReads
    omega
  induction n with
  | zero => exact .inr rfl
  | succ n ih =>
    left
    have hnext := hround (i + roundReads * n)
    rw [counted_succ, hlast]
    rcases ih with hbefore | rfl
    · have hgap := hle (Nat.sub_le (i + roundReads * n) 1)
      omega
    · rw [counted_zero, Nat.mul_zero, Nat.add_zero]
      rw [Nat.mul_zero, Nat.add_zero] at hnext
      omega

end Spin

/-! ### The handlers -/

/-- The fields of `option` that the handlers read. -/
structure ServiceTimes where
  getDuration : UInt64 := 1000 * 10
  rangeDuration : UInt64 := 1000 * 100

/-- What a handler reads of the clocks: the CPU time of its thread before and after the lookup, and what `spin_for` reads. -/
structure Clocks where
  startDuration : UInt64
  nowDuration : UInt64
  now : ℕ → UInt64

/-- The end of both handlers. -/
def Clocks.spinRest (fuel : ℕ) (serviceTime : UInt64) (c : Clocks) : Option ℕ :=
  let dura := c.nowDuration - c.startDuration
  if dura < serviceTime then spinFor c.now fuel 0 (serviceTime - dura) else some 0

section Handlers

variable (S : KeyValueStore Bytes Bytes) (options : ServiceTimes) (fuel : ℕ) (c : Clocks)

/-- `HandleGet` with its clocks. -/
def serveGet (request : Request) (db : S.Db) : Except RequestStop (Option ℕ) := do
  let _ ← handleGet S request db
  .ok (c.spinRest fuel options.getDuration)

/-- `HandleRange` with its clocks. -/
def serveRange (request : Request) (db : S.Db) : Except RequestStop (Option ℕ) := do
  let _ ← handleRange S request db
  .ok (c.spinRest fuel options.rangeDuration)

/-- `HandleRequest` with its clocks. -/
def serveRequest (request : Request) (db : S.Db) : Except RequestStop (Option ℕ) :=
  match request.work with
  | .get _ => serveGet S options fuel c request db
  | .range _ _ => serveRange S options fuel c request db

end Handlers

def ServiceTimes.of (options : ServiceTimes) : Work → UInt64
  | .get _ => options.getDuration
  | .range _ _ => options.rangeDuration

/-- The CPU time of the lookup. -/
def Clocks.lookupTime (c : Clocks) : ℕ := c.nowDuration.toNat - c.startDuration.toNat

/-- The rounds until the lookup and the rounds have taken the service time. -/
theorem Clocks.spinRest_eq_some {c : Clocks} (hcpu : c.startDuration ≤ c.nowDuration) {fuel j : ℕ} {serviceTime : UInt64} :
    c.spinRest fuel serviceTime = some j ↔
      ∃ n ≤ fuel, j = roundReads * n ∧ IsLeast {n | serviceTime.toNat ≤ c.lookupTime + counted c.now 0 n} n := by
  have hdura : (c.nowDuration - c.startDuration).toNat = c.lookupTime := UInt64.toNat_sub_of_le _ _ hcpu
  unfold spinRest
  dsimp only
  split
  · rename_i hless
    have hrest : (serviceTime - (c.nowDuration - c.startDuration)).toNat = serviceTime.toNat - c.lookupTime := by
      rw [UInt64.toNat_sub_of_le _ _ (UInt64.le_of_lt hless), hdura]
    have hset : {n | (serviceTime - (c.nowDuration - c.startDuration)).toNat ≤ counted c.now 0 n} =
        {n | serviceTime.toNat ≤ c.lookupTime + counted c.now 0 n} := by
      ext n
      rw [Set.mem_ofPred_eq, Set.mem_ofPred_eq, hrest]
      omega
    rw [spinFor_eq_some, hset]
    simp only [Nat.zero_add]
  · rename_i hnot
    have hdone : serviceTime.toNat ≤ c.lookupTime := by
      rw [← hdura]
      exact UInt64.le_iff_toNat_le.mp (UInt64.not_lt.mp hnot)
    have hleast : IsLeast {n | serviceTime.toNat ≤ c.lookupTime + counted c.now 0 n} 0 :=
      ⟨Nat.le_trans hdone (Nat.le_add_right ..), fun m _ => Nat.zero_le m⟩
    constructor
    · intro hj
      exact ⟨0, Nat.zero_le _, (Option.some.inj hj).symm, hleast⟩
    · rintro ⟨n, -, rfl, hn⟩
      rw [hn.unique hleast]
      rfl

section Found

variable {S : KeyValueStore Bytes Bytes} {R : S.OrderedMap} {db db' : S.Db}

/-- A filled database answers every request. -/
theorem handleRequest_returns (hfilled : Filled R kNumEntries.toNat db) (request : Request) :
    ∃ found, handleRequest S request db = .ok found := by
  have hn : kNumEntries.toNat ≤ 2 ^ 32 := by decide
  cases hwork : request.work with
  | get entry => exact ⟨_, by simp only [handleRequest, handleGet, hwork]; exact get_eq hfilled hn entry⟩
  | range startEntry size =>
    exact ⟨_, by simp only [handleRequest, handleRange, hwork]; exact rangeQuery_eq hfilled hn startEntry size⟩

/-- After the lookup only the clocks matter. -/
theorem serveRequest_eq (hfilled : Filled R kNumEntries.toNat db) (options : ServiceTimes) (fuel : ℕ) (c : Clocks)
    (request : Request) : serveRequest S options fuel c request db = .ok (c.spinRest fuel (options.of request.work)) := by
  obtain ⟨found, hfound⟩ := handleRequest_returns hfilled request
  unfold handleRequest at hfound
  cases hwork : request.work with
  | get entry =>
    simp only [hwork] at hfound
    simp only [serveRequest, serveGet, hwork, hfound, bind, Except.bind, ServiceTimes.of]
  | range startEntry size =>
    simp only [hwork] at hfound
    simp only [serveRequest, serveRange, hwork, hfound, bind, Except.bind, ServiceTimes.of]

/-- **A request takes its service time.** No assert fails, whether the entries exist or not, and the handler returns after the first round at which the CPU time of the lookup and the counted rounds add up to the service time. It overshoots by less than 100 microseconds, and while it spins the time it lacks goes by, if the clock does not go back. -/
theorem served_for (hempty : ∀ k, R.contents db k = none) (hfill : fill S db = .ok (true, db')) (options : ServiceTimes)
    {c : Clocks} (hcpu : c.startDuration ≤ c.nowDuration) (request : Request) :
    (∀ fuel, ∃ outcome, serveRequest S options fuel c request db' = .ok outcome) ∧
    (∀ reads, (∃ fuel, serveRequest S options fuel c request db' = .ok (some reads)) ↔
      ∃ n, reads = roundReads * n ∧
        IsLeast {n | (options.of request.work).toNat ≤ c.lookupTime + counted c.now 0 n} n) ∧
    ∀ fuel reads, serveRequest S options fuel c request db' = .ok (some reads) → 0 < reads →
      c.lookupTime + counted c.now 0 (reads / roundReads) < (options.of request.work).toNat + 100000 ∧
      ((∀ k l, k ≤ l → c.now k ≤ c.now l) →
        (options.of request.work).toNat ≤ c.lookupTime + ((c.now (reads - 1)).toNat - (c.now 0).toNat)) := by
  have hfilled := fill_filled hempty hfill
  have hserve := fun fuel => serveRequest_eq hfilled options fuel c request
  refine ⟨fun fuel => ⟨_, hserve fuel⟩, fun reads => ?_, fun fuel reads hreads hspun => ?_⟩
  · simp only [hserve, Except.ok.injEq, Clocks.spinRest_eq_some hcpu]
    constructor
    · rintro ⟨fuel, n, -, hn⟩
      exact ⟨n, hn⟩
    · rintro ⟨n, hn⟩
      exact ⟨n, n, Nat.le_refl n, hn⟩
  · rw [hserve, Except.ok.injEq, Clocks.spinRest_eq_some hcpu] at hreads
    obtain ⟨n, -, rfl, hcounts, hleast⟩ := hreads
    have hrounds : roundReads * n / roundReads = n := Nat.mul_div_cancel_left n (by decide)
    obtain ⟨m, rfl⟩ : ∃ m, n = m + 1 := ⟨n - 1, by unfold roundReads at hspun; omega⟩
    rw [hrounds]
    constructor
    · have hbefore : ¬ (options.of request.work).toNat ≤ c.lookupTime + counted c.now 0 m :=
        fun hle => Nat.not_succ_le_self m (hleast hle)
      have hlast : countedTime c.now (0 + roundReads * m) < 100000 := countedTime_lt _
      rw [counted_succ]
      omega
    · intro hmono
      have helapsed := (counted_le_elapsed hmono 0 (m + 1)).resolve_right (Nat.succ_ne_zero m)
      rw [Nat.zero_add] at helapsed
      have henough : (options.of request.work).toNat ≤ c.lookupTime + counted c.now 0 (m + 1) := hcounts
      omega

end Found

/-- A lookup of 4000 ns, and a clock that is 40 ns further on at each read. -/
def steady : Clocks := ⟨0, 4000, fun i => 40 * UInt64.ofNat i⟩

theorem served_for_steady : ∃ db', fill (journal Bytes Bytes) [] = .ok (true, db') ∧
    ∃ fuel, serveRequest (journal Bytes Bytes) {} fuel steady blank db' = .ok (some 151) := by
  obtain ⟨db', hfill⟩ := fill_journal
  have hempty : ∀ k, (journalMap Bytes Bytes).contents [] k = none := fun _ => rfl
  obtain ⟨-, hreads, -⟩ := served_for hempty hfill {} (c := steady) (by decide) blank
  -- one round counts 6000 ns
  refine ⟨db', hfill, (hreads 151).mpr ⟨1, rfl, by decide, fun m hm => ?_⟩⟩
  cases m with
  | zero => exact absurd hm (by decide)
  | succ m => exact Nat.le_add_left 1 m

end Workload

end CosUserspace
