import CosUserspace.Workload.OpenLoop
import CosUserspace.Workload.Response
import Mathlib.Algebra.Order.BigOperators.Group.Finset

/-!
# No arrival waits for ever

If the clock passes every arrival time, each arrival is polled and recorded in the end, in every fair run in which nobody is told to exit. A worker that has no batch marks itself IDLE and stays so until the generator comes to it, and the generator goes over all workers again and again; so as long as an arrival is due, the generator comes to an idle worker and polls the arrival.
-/

namespace CosUserspace

namespace Workload

open Epistle.Clients (Bounded)

variable {capacity : Nat} [NeZero capacity] {S : Setup}

/-! ### A worker without a batch -/

namespace Desk

variable {d : Desk capacity}

/-- No access of a worker stores a size. -/
theorem move_numRequests {batch : Nat} {key : Int32} {now : UInt64} {e : Epistle UInt32 capacity}
    (hnum : d.numRequests = 0) :
    (d.move batch key now e).2.numRequests = 0 := by
  have hrequest : ∀ i (f : Request → Desk capacity), (∀ r, (f r).numRequests = 0) →
      (d.withRequest i f).numRequests = 0 := by
    intro i f hf
    unfold withRequest
    cases d.requests[i]? with
    | none => exact hnum
    | some r => exact hf r
  unfold move
  cases d.pc with
  | announce | start | finish | failed => exact hnum
  | register add | retire add | lookup | measure num =>
    dsimp only
    split <;> exact hnum
  | poll get | confirm get =>
    dsimp only
    split
    · exact hnum
    · split <;> exact hnum
  | load =>
    dsimp only
    rw [if_pos hnum]
    exact hnum
  | stampStart num i time | stampFinish num i time =>
    refine hrequest i _ fun r => ?_
    rw [goto_numRequests, setRequests_numRequests]
    exact hnum
  | handle num i | append num i => exact hrequest i _ fun _ => hnum
  | release =>
    show (d.setNumRequests 0).numRequests = 0
    cases hwork : d.work with
    | none => simp [setNumRequests, numRequests, hwork]
    | some work => simp [setNumRequests, numRequests, hwork]

end Desk

namespace DeskInv

variable {batch : Nat} {key : Int32} {e : Epistle UInt32 capacity} {clock now : UInt64} {stage : Stage} {d : Desk capacity}

/-- A worker that is not polling is nobody else's business. -/
theorem away_of_not_polling (h : DeskInv batch key e clock stage d) (hnot : ¬ d.pc.Polling) : stage = .away := by
  cases h.turn with
  | starting | running | released => rfl
  | idle _ hpc | loaded hpc => exact absurd hpc hnot

/-- A worker that polls without a batch is marked IDLE. -/
theorem holds_idle (h : DeskInv batch key e clock .away d) (hnum : d.numRequests = 0) (hpolling : d.pc.Polling) :
    e.Holds key epistleThreadIdle := by
  rcases h.holds_of_polling rfl hpolling with hholds | ⟨-, -, hloaded⟩
  · exact hholds
  · exact absurd hnum hloaded.numRequests_ne_zero

/-- It goes on polling. -/
theorem move_polling (h : DeskInv batch key e clock .away d) (hnum : d.numRequests = 0) (hpolling : d.pc.Polling) :
    (d.move batch key now e).2.pc.Polling := by
  have hholds := h.holds_idle hnum hpolling
  obtain ⟨get, hpc⟩ := hpolling.eq_poll
  rcases Epistle.getMove_holds h.placed hholds (h.access_at hpc) with ⟨get', hmove, -⟩ | hmove
  · simp only [Desk.move, hpc, hmove]
    trivial
  · simp only [Desk.move, hpc, hmove, if_true]
    trivial

end DeskInv

/-! ### An arrival that is due -/

/-- After at most `n` more accesses the generator puts a request into the vector of the worker it is at, if an arrival is due. -/
def GeneratorPc.Filling {k : ℕ} (n : ℕ) : GeneratorPc k capacity → Prop
  | .expectZero _ => 5 ≤ n
  | .clear _ => 4 ≤ n
  | .arrive _ _ => 3 ≤ n
  | .receive _ _ _ => 2 ≤ n
  | .assign _ _ _ => 1 ≤ n
  | .push _ _ _ => True
  | _ => False

omit [NeZero capacity] in
theorem GeneratorPc.Filling.mono {k m n : ℕ} {pc : GeneratorPc k capacity} (h : pc.Filling m) (hle : m ≤ n) :
    pc.Filling n := by
  cases pc with
  | expectZero | clear | arrive | receive | assign => exact Nat.le_trans h hle
  | push => trivial
  | _ => exact h.elim

namespace HandOff

variable {s : HandOff S capacity}

/-- The generator puts the request into the vector, or it is one access nearer to it. -/
theorem moveGenerator_filling {n : ℕ} {input : Input} (hbatch : 0 < S.batch) (hfilling : s.generator.Filling n)
    (hdue : s.start ≤ input.now ∨ s.generator.Filling 2)
    (hfailed : (s.moveGenerator input).generator ≠ .failed)
    (hstopped : ∀ w, (s.moveGenerator input).generator ≠ .stopped w) :
    s.polledCount < (s.moveGenerator input).polledCount ∨
      ∃ m < n, (s.moveGenerator input).generator.Filling m := by
  let Fills := fun t : HandOff S capacity => t.generator ≠ .failed → (∀ w, t.generator ≠ .stopped w) →
    s.polledCount < t.polledCount ∨ ∃ m < n, t.generator.Filling m
  suffices hfills : Fills (s.moveGenerator input) from hfills hfailed hstopped
  have hnone : ∀ {t : HandOff S capacity}, t.generator = .failed → Fills t := fun hpc hfailed => absurd hpc hfailed
  unfold moveGenerator
  cases hpc : s.generator with
  | expectZero w =>
    rw [hpc] at hfilling
    have hn : 5 ≤ n := hfilling
    apply withWork_of (P := Fills) (hnone rfl)
    intro work
    split
    · exact fun _ _ => .inr ⟨4, hn, Nat.le_refl 4⟩
    · exact hnone rfl
  | clear w =>
    rw [hpc] at hfilling
    have hn : 4 ≤ n := hfilling
    apply withWork_of (P := Fills) (hnone rfl)
    intro work _ _
    refine .inr ⟨3, hn, ?_⟩
    show (nextPoll S w 0).Filling 3
    rw [nextPoll, if_pos hbatch]
    exact Nat.le_refl 3
  | arrive w k =>
    rw [hpc] at hfilling hdue
    have hn : 3 ≤ n := hfilling
    have hnow : s.start ≤ input.now := hdue.resolve_right fun hcarried => absurd hcarried (by decide : ¬ 3 ≤ 2)
    dsimp only
    rw [if_pos hnow]
    split
    · exact fun _ hstopped => absurd rfl (hstopped w)
    · exact fun _ _ => .inr ⟨2, hn, Nat.le_refl 2⟩
  | receive w k arrival =>
    rw [hpc] at hfilling
    exact fun _ _ => .inr ⟨1, hfilling, Nat.le_refl 1⟩
  | assign w k request =>
    rw [hpc] at hfilling
    exact fun _ _ => .inr ⟨0, hfilling, trivial⟩
  | push w k request =>
    apply withWork_of (P := Fills) (hnone rfl)
    intro work _ _
    left
    refine Nat.lt_of_lt_of_eq (Nat.lt_succ_self s.polledCount) (Eq.symm ?_)
    exact Dealing.polledCount_push (s := s) (w := w) rfl
  | _ =>
    rw [hpc] at hfilling
    exact hfilling.elim

theorem moveGenerator_stopped {input : Input} {w : Fin S.numWorkers}
    (hstop : (s.moveGenerator input).generator = .stopped w) :
    s.generator = .stopped w ∨ s.generator.Launched ∧ s.start = 0 := by
  by_cases hlaunched : s.generator.Launched
  · rcases (moveGenerator_launched input hlaunched).1 with hlaunched' | ⟨hzero, -⟩
    · rw [hstop] at hlaunched'
      exact hlaunched'.elim
    · exact .inr ⟨hlaunched, hzero⟩
  · cases hpc : s.generator with
    | wait =>
      simp only [moveGenerator, hpc] at hstop
      split at hstop
      · cases hstop
      · rw [hpc] at hstop
        cases hstop
    | launch =>
      simp only [moveGenerator, hpc] at hstop
      cases hstop
    | stopped v =>
      simp only [moveGenerator, hpc] at hstop
      exact .inl hstop
    | _ =>
      rw [hpc] at hlaunched
      exact absurd trivial hlaunched

/-- An arrival waits in the ingress queue or is on its way into a vector. -/
structure Due (s : HandOff S capacity) : Prop where
  launched : s.generator.Launched
  arrived : s.start ≤ s.clock ∨ s.generator.Filling 2

theorem Due.moveGenerator {input : Input} (h : s.Due) (hbatch : 0 < S.batch)
    (hfailed : (s.moveGenerator input).generator ≠ .failed)
    (hstopped : ∀ w, (s.moveGenerator input).generator ≠ .stopped w) :
    s.polledCount < (s.moveGenerator input).polledCount ∨ (s.moveGenerator input).Due := by
  obtain ⟨hlaunched, hstart⟩ := moveGenerator_launched input h.launched
  have hlaunched' := hlaunched.resolve_right fun hstop => hstop.2.elim hstopped
  rcases h.arrived with hdue | hfilling
  · right
    refine ⟨hlaunched', ?_⟩
    rcases hstart with hsame | ⟨-, w, k, arrival, hreceive⟩
    · rw [hsame, HandOff.moveGenerator_clock]
      exact .inl hdue
    · rw [hreceive]
      exact .inr (Nat.le_refl 2)
  · refine (moveGenerator_filling hbatch hfilling (.inr hfilling) hfailed hstopped).imp_right ?_
    rintro ⟨m, hlt, hm⟩
    exact ⟨hlaunched', .inr (hm.mono (Nat.le_of_lt hlt))⟩

end HandOff

/-- More items are dealt out after those before. -/
theorem dealt_append {ι : Type} [DecidableEq ι] (owners more : List ι) (w : ι) :
    dealt owners w <+: dealt (owners ++ more) w := by
  induction more using List.reverseRecOn with
  | nil => rw [List.append_nil]
  | append_singleton more v ih =>
    rw [← List.append_assoc, dealt_snoc]
    exact ih.trans (List.prefix_append _ _)

namespace Dealing

variable {launched : UInt64} {gap : Nat → UInt64} {owners : List (Fin S.numWorkers)} {s : HandOff S capacity}

omit [NeZero capacity] in
theorem start_ne_zero (h : Dealing launched gap owners s) (hlaunched : s.generator.Launched)
    (hfailed : s.generator ≠ .failed) (hnonzero : ∀ n, arrivalTime launched gap n ≠ 0) : s.start ≠ 0 := by
  have hnext := h.next
  unfold HandOff.NextArrival at hnext
  cases hpc : s.generator with
  | wait | launch | stopped =>
    rw [hpc] at hlaunched
    exact hlaunched.elim
  | failed => exact absurd hpc hfailed
  | receive | assign | push =>
    simp only [hpc] at hnext
    rw [hnext.2]
    exact hnonzero _
  | _ =>
    simp only [hpc] at hnext
    rw [hnext]
    exact hnonzero _

omit [NeZero capacity] in
theorem due (h : Dealing launched gap owners s) (hlaunched : s.generator.Launched) (hfailed : s.generator ≠ .failed)
    (hclock : arrivalTime launched gap owners.length ≤ s.clock) : s.Due := by
  refine ⟨hlaunched, ?_⟩
  have hnext := h.next
  unfold HandOff.NextArrival at hnext
  cases hpc : s.generator with
  | wait | launch | stopped =>
    rw [hpc] at hlaunched
    exact hlaunched.elim
  | failed => exact absurd hpc hfailed
  | receive => exact .inr (Nat.le_refl 2)
  | assign => exact .inr (Nat.le_succ 1)
  | push => exact .inr trivial
  | _ =>
    simp only [hpc] at hnext
    rw [hnext]
    exact .inl hclock

end Dealing

namespace Experiment

variable {s t : Experiment S capacity} {action : Thread S.numWorkers × Signal}

theorem Step.polledCount_le (hstep : Step s action t) : s.handOff.polledCount ≤ t.handOff.polledCount :=
  Finset.sum_le_sum fun w _ => (hstep.polled_grows w).length_le

theorem Step.clock_le (hstep : Step s action t) : s.handOff.clock ≤ t.handOff.clock := by
  obtain ⟨hle, rfl⟩ := hstep
  rw [move_clock]
  exact hle

theorem Step.start_frame (hstep : Step s action t) (hother : action.1 ≠ .generator) :
    t.handOff.start = s.handOff.start := by
  obtain ⟨thread, signal⟩ := action
  obtain ⟨-, rfl⟩ := hstep
  rcases move_handOff thread signal s with hmove | ⟨epistle, hmove⟩
  · rw [hmove]
    cases thread with
    | generator => exact absurd rfl hother
    | worker w => rfl
    | main =>
      show (HandOff.moveMain _).start = _
      unfold HandOff.moveMain
      repeat' split
      all_goals rfl
  · rw [hmove]

/-- An arrival that is due stays so until a request is polled. -/
theorem Step.due (hstep : Step s action t) (hdue : s.handOff.Due) (hbatch : 0 < S.batch) (hopen : s.exitAll = false)
    (hworking : s.generator = .working) (hfailed : t.handOff.generator ≠ .failed)
    (hstopped : ∀ w, t.handOff.generator ≠ .stopped w) :
    s.handOff.polledCount < t.handOff.polledCount ∨ t.handOff.Due := by
  by_cases hmove : action.1 = .generator
  · have hticked : ({ s.handOff with clock := action.2.now } : HandOff S capacity).Due :=
      ⟨hdue.launched, hdue.arrived.imp_left fun hle => UInt64.le_trans hle hstep.1⟩
    rw [hstep.generator_next hmove hopen hworking] at hfailed hstopped ⊢
    exact hticked.moveGenerator hbatch hfailed hstopped
  · have hpc := (hstep.generator_frame hmove).2
    refine .inr ⟨hpc ▸ hdue.launched, ?_⟩
    rw [hpc, hstep.start_frame hmove]
    exact hdue.arrived.imp_left fun hle => UInt64.le_trans hle hstep.clock_le

theorem Step.filling {n : ℕ} (hstep : Step s action t) (hmove : action.1 = .generator) (hdue : s.handOff.Due)
    (hfilling : s.handOff.generator.Filling n) (hbatch : 0 < S.batch) (hopen : s.exitAll = false)
    (hworking : s.generator = .working) (hfailed : t.handOff.generator ≠ .failed)
    (hstopped : ∀ w, t.handOff.generator ≠ .stopped w) :
    s.handOff.polledCount < t.handOff.polledCount ∨ ∃ m < n, t.handOff.generator.Filling m := by
  have harrived := hdue.arrived.imp_left fun hle => UInt64.le_trans hle hstep.1
  rw [hstep.generator_next hmove hopen hworking] at hfailed hstopped ⊢
  exact HandOff.moveGenerator_filling (s := { s.handOff with clock := action.2.now }) hbatch hfilling harrived hfailed
    hstopped

/-- The worker polls without a batch, and the generator is elsewhere. -/
structure Idle (s : Experiment S capacity) (w : Fin S.numWorkers) : Prop where
  done : s.handOff.main = .done
  away : s.handOff.generator.stage w = .away
  num : (s.handOff.desk w).numRequests = 0
  polling : (s.handOff.desk w).pc.Polling

/-- The generator finds an idle worker so, or it goes on looking. -/
theorem Step.finds_idle {w : Fin S.numWorkers} {get : Epistle.GetPc capacity} {count : ℕ} (hstep : Step s action t)
    (hmove : action.1 = .generator) (hs : Sound s) (hopen : s.exitAll = false) (hworking : s.generator = .working)
    (hidle : Idle s w) (hlook : s.handOff.generator = .look w get)
    (hbounded : Bounded s.handOff.epistle.occ count (.getting (S.tid w) get : Epistle.Client UInt32 capacity)) :
    t.handOff.generator = .expectZero w ∨ count + 1 ≤ callAccesses capacity ∧
      ∃ get', t.handOff.generator = .look w get' ∧
        Bounded t.handOff.epistle.occ (count + 1) (.getting (S.tid w) get' : Epistle.Client UInt32 capacity) := by
  have hinv := hs.inv.working hworking
  have hdesk := hinv.desks w
  rw [hidle.away] at hdesk
  have hholds := hdesk.holds_idle hidle.num hidle.polling
  have hat := hinv.generator
  rw [hlook] at hat
  obtain ⟨slot, hfree⟩ := hs.free
  have hnext := hstep.generator_next hmove hopen hworking
  rcases Epistle.getMove_holds hdesk.placed hholds hat with ⟨get', hget, -⟩ | hget
  · right
    refine ⟨count_lt hbounded (by simp) hfree, get', ?_, ?_⟩
    · rw [hnext]
      simp only [HandOff.moveGenerator, hlook, hget]
      rfl
    · rcases getting_cases hbounded hfree with ⟨get'', hget', hbounded'⟩ | ⟨hint, hget', -⟩
      · rw [hget] at hget'
        obtain rfl := Sum.inl.inj hget'
        exact hbounded'.mono hstep.keeps
      · rw [hget] at hget'
        cases hget'
  · left
    have hnot : epistleThreadIdle ≠ epistleThreadRunnable := by decide
    rw [hnext]
    simp only [HandOff.moveGenerator, hlook, hget, if_neg hnot]
    rfl

section Fair

variable {e : Epistle UInt32 capacity} (run : FairRun SettledStep Prod.fst Ready (Experiment.init S e))
  (hroom : Roomy S e) (hopen : ∀ i, (run.state i).exitAll = false)
  (hstopped : ∀ i w, (run.state i).handOff.generator ≠ .stopped w) {i : ℕ} {w : Fin S.numWorkers}

include hroom hopen in
/-- A worker without a batch gets to its loop and polls. -/
theorem reaches_polling (hdone : (run.state i).handOff.main = .done)
    (haway : (run.state i).handOff.generator.stage w = .away) (hnum : ((run.state i).handOff.desk w).numRequests = 0) :
    ∃ j, i ≤ j ∧ Idle (run.state j) w := by
  let Leaving := fun n i => (run.state i).handOff.main = .done ∧ ((run.state i).handOff.desk w).numRequests = 0 ∧
    ¬ ((run.state i).handOff.desk w).pc.Polling ∧ roundAccesses S.batch capacity ≤ (run.state i).spent w + n
  have hinside : ∀ i, ¬ ((run.state i).handOff.desk w).pc.Polling → (run.state i).worker w = .inside := by
    intro i hnot
    cases hlife : (run.state i).worker w with
    | inside => rfl
    | exited => exact absurd hlife (not_exited run hopen i w)
    | head =>
      have hpc := ((tracked run hroom i).sound.budgets.head w hlife).1
      rw [hpc] at hnot
      exact absurd trivial hnot
  have hother : ∀ n i, Leaving n i → (run.label i).1 ≠ .worker w → Idle (run.state (i + 1)) w ∨ Leaving n (i + 1) := by
    intro n i h hother
    obtain ⟨hdone, hnum, hnot, hn⟩ := h
    have hstep := (run.step i).1
    have haway := (desks run hroom hopen i w).away_of_not_polling hnot
    obtain ⟨hdesk, -⟩ := hstep.desk_frame hother hdone haway
    obtain ⟨-, -, -, hspent⟩ := hstep.worker_frame hother
    exact .inr ⟨hstep.done_stays hdone, hdesk ▸ hnum, hdesk ▸ hnot, hspent ▸ hn⟩
  have hmove : ∀ n i, Leaving n i → (run.label i).1 = .worker w →
      Idle (run.state (i + 1)) w ∨ ∃ m < n, Leaving m (i + 1) := by
    intro n i h hmove
    obtain ⟨hdone, hnum, hnot, hn⟩ := h
    have hstep := (run.step i).1
    have haway := (desks run hroom hopen i w).away_of_not_polling hnot
    obtain ⟨hgenerator, hown⟩ := hstep.own hmove (hopen i) (not_exited run hopen i w)
    have hlife := hinside i hnot
    obtain ⟨-, hspent, -, hdesk⟩ := hown.resolve_left fun hhead => by simp [hlife] at hhead
    have hnum' : ((run.state (i + 1)).handOff.desk w).numRequests = 0 := by
      rw [hdesk]
      exact Desk.move_numRequests hnum
    by_cases hpolling : ((run.state (i + 1)).handOff.desk w).pc.Polling
    · exact .inl ⟨hstep.done_stays hdone, hgenerator ▸ haway, hnum', hpolling⟩
    · have hsound := (tracked run hroom (i + 1)).sound
      obtain ⟨slot, hfree⟩ := hsound.free
      have hbudget := (hsound.budgets.inside w (hinside (i + 1) hpolling)).le hfree (hsound.inv.not_failed.2 w)
      exact .inr ⟨n - 1, by omega, hstep.done_stays hdone, hnum', hpolling, by omega⟩
  by_cases hpolling : ((run.state i).handOff.desk w).pc.Polling
  · exact ⟨i, Nat.le_refl i, hdone, haway, hnum, hpolling⟩
  · have hready : ∀ n i, Leaving n i → Ready (.worker w) (run.state i) :=
      fun _ i h => (tracked run hroom i).sound.inv.ready h.2.2.1
    exact run.reaches (.worker w) (P := Leaving) (Q := fun i => Idle (run.state i) w) hready hother hmove
      ⟨hdone, hnum, hpolling, Nat.le_add_left ..⟩

include hroom hopen in
/-- An idle worker stays so until the generator finds it. -/
theorem idle_next (hidle : Idle (run.state i) w) :
    (run.state (i + 1)).handOff.generator = .expectZero w ∨ Idle (run.state (i + 1)) w := by
  have hstep := (run.step i).1
  by_cases hmove : (run.label i).1 = .worker w
  · right
    obtain ⟨hgenerator, hown⟩ := hstep.own hmove (hopen i) (not_exited run hopen i w)
    have haway : (run.state (i + 1)).handOff.generator.stage w = .away := hgenerator ▸ hidle.away
    rcases hown with ⟨-, -, -, hdesk⟩ | ⟨-, -, -, hdesk⟩
    · exact ⟨hstep.done_stays hidle.done, haway, hdesk ▸ hidle.num, hdesk ▸ hidle.polling⟩
    · have hinv := desks run hroom hopen i w
      rw [hidle.away] at hinv
      refine ⟨hstep.done_stays hidle.done, haway, ?_, ?_⟩
      · rw [hdesk]
        exact Desk.move_numRequests hidle.num
      · rw [hdesk]
        exact hinv.move_polling hidle.num hidle.polling
  · obtain ⟨hdesk, helsewhere⟩ := hstep.desk_frame hmove hidle.done hidle.away
    rcases helsewhere with haway | hfound
    · exact .inr ⟨hstep.done_stays hidle.done, haway, hdesk ▸ hidle.num, hdesk ▸ hidle.polling⟩
    · exact .inl hfound

include hroom hopen in
theorem found_or_idle {j : ℕ} (hidle : Idle (run.state i) w) (hle : i ≤ j) :
    (∃ k, i ≤ k ∧ (run.state k).handOff.generator = .expectZero w) ∨ Idle (run.state j) w := by
  induction j, hle using Nat.le_induction with
  | base => exact .inr hidle
  | succ j hle ih =>
    rcases ih with hfound | hidle'
    · exact .inl hfound
    · exact (idle_next run hroom hopen hidle').imp_left fun hfound => ⟨j + 1, Nat.le_succ_of_le hle, hfound⟩

include hroom hopen hstopped in
/-- The generator gets to the head of its loop. -/
theorem reaches_enter (hdone : (run.state i).handOff.main = .done) :
    ∃ j, i ≤ j ∧ (run.state j).handOff.generator = .enter 0 := by
  let Going := fun n i => (run.state i).handOff.main = .done ∧ (run.state i).handOff.generator ≠ .enter 0 ∧
    Ahead S (run.state i).handOff.epistle.occ n (run.state i).handOff.generator
  have hother : ∀ n i, Going n i → (run.label i).1 ≠ .generator →
      (run.state (i + 1)).handOff.generator = .enter 0 ∨ Going n (i + 1) := by
    intro n i h hother
    obtain ⟨hdone, henter, hahead⟩ := h
    have hstep := (run.step i).1
    have hpc := (hstep.generator_frame hother).2
    refine .inr ⟨hstep.done_stays hdone, hpc ▸ henter, ?_⟩
    rw [hpc]
    exact hahead.mono hstep.keeps
  have hmove : ∀ n i, Going n i → (run.label i).1 = .generator →
      (run.state (i + 1)).handOff.generator = .enter 0 ∨ ∃ m < n, Going m (i + 1) := by
    intro n i h hmove
    obtain ⟨hdone, henter, hahead⟩ := h
    have hstep := (run.step i).1
    have hsound := (tracked run hroom i).sound
    obtain ⟨m, hlt, hahead'⟩ := hstep.goes_on hmove hsound (tracked run hroom (i + 1)).sound (hopen i)
      (working run hroom hopen i) (fun _ => hsound.lively.released hdone) henter (hstopped i) hahead
    by_cases henter' : (run.state (i + 1)).handOff.generator = .enter 0
    · exact .inl henter'
    · exact .inr ⟨m, hlt, hstep.done_stays hdone, henter', hahead'⟩
  by_cases henter : (run.state i).handOff.generator = .enter 0
  · exact ⟨i, Nat.le_refl i, henter⟩
  · obtain ⟨n, hahead⟩ := (tracked run hroom i).sound.lively.ahead (working run hroom hopen i)
    exact run.reaches .generator (fun _ _ _ => trivial) (P := Going)
      (Q := fun i => (run.state i).handOff.generator = .enter 0) hother hmove ⟨hdone, henter, hahead⟩

include hroom hopen hstopped in
/-- The generator comes to the first worker and finds it idle. -/
theorem reaches_expectZero (hidle : Idle (run.state i) w) (hfirst : w.val = 0) :
    ∃ j, i ≤ j ∧ (run.state j).handOff.generator = .expectZero w := by
  let Looking := fun n j => Idle (run.state j) w ∧
    ((run.state j).handOff.generator = .enter 0 ∧ callAccesses capacity + 1 ≤ n ∨
      ∃ get count, (run.state j).handOff.generator = .look w get ∧
        Bounded (run.state j).handOff.epistle.occ count (.getting (S.tid w) get : Epistle.Client UInt32 capacity) ∧
        callAccesses capacity ≤ n + count)
  have hother : ∀ n j, Looking n j → (run.label j).1 ≠ .generator →
      (run.state (j + 1)).handOff.generator = .expectZero w ∨ Looking n (j + 1) := by
    intro n j h hother
    obtain ⟨hidle, hpc⟩ := h
    have hstep := (run.step j).1
    have hsame := (hstep.generator_frame hother).2
    refine (idle_next run hroom hopen hidle).imp_right fun hidle' => ⟨hidle', ?_⟩
    rw [hsame]
    refine hpc.imp_right ?_
    rintro ⟨get, count, hlook, hbounded, hn⟩
    exact ⟨get, count, hlook, hbounded.mono hstep.keeps, hn⟩
  have hmove : ∀ n j, Looking n j → (run.label j).1 = .generator →
      (run.state (j + 1)).handOff.generator = .expectZero w ∨ ∃ m < n, Looking m (j + 1) := by
    intro n j h hmove
    obtain ⟨hidle, hpc⟩ := h
    have hstep := (run.step j).1
    have hworking := working run hroom hopen j
    rcases idle_next run hroom hopen hidle with hfound | hidle'
    · exact .inl hfound
    · rcases hpc with ⟨henter, hn⟩ | ⟨get, count, hlook, hbounded, hn⟩
      · right
        have hw : (⟨0, hfirst ▸ w.isLt⟩ : Fin S.numWorkers) = w := Fin.ext hfirst.symm
        have hlook : (run.state (j + 1)).handOff.generator = .look w (.test (Epistle.hash (S.tid w))) := by
          rw [hstep.generator_next hmove (hopen j) hworking]
          simp only [HandOff.moveGenerator, henter, dif_pos (hfirst ▸ w.isLt), hw]
          rfl
        exact ⟨n - 1, by omega, hidle', .inr ⟨_, 0, hlook, .start _ _, by omega⟩⟩
      · rcases hstep.finds_idle hmove (tracked run hroom j).sound (hopen j) hworking hidle hlook hbounded with
          hfound | ⟨hcount, get', hlook', hbounded'⟩
        · exact .inl hfound
        · exact .inr ⟨n - 1, by omega, hidle', .inr ⟨get', count + 1, hlook', hbounded', by omega⟩⟩
  obtain ⟨j, hj, henter⟩ := reaches_enter run hroom hopen hstopped hidle.done
  rcases found_or_idle run hroom hopen hidle hj with hfound | hidle'
  · exact hfound
  · obtain ⟨k, hk, hfound⟩ := run.reaches .generator (fun _ _ _ => trivial) (P := Looking)
      (Q := fun j => (run.state j).handOff.generator = .expectZero w) hother hmove (n := callAccesses capacity + 1)
      ⟨hidle', .inl ⟨henter, Nat.le_refl _⟩⟩
    exact ⟨k, Nat.le_trans hj hk, hfound⟩

theorem polledCount_mono {j : ℕ} (hle : i ≤ j) : (run.state i).handOff.polledCount ≤ (run.state j).handOff.polledCount := by
  induction j, hle using Nat.le_induction with
  | base => exact Nat.le_refl _
  | succ j _ ih => exact Nat.le_trans ih (run.step j).1.polledCount_le

section Due

variable (hbatch : 0 < S.batch)

include hroom hopen hstopped hbatch in
theorem Step.due_at (hdue : (run.state i).handOff.Due) :
    (run.state i).handOff.polledCount < (run.state (i + 1)).handOff.polledCount ∨ (run.state (i + 1)).handOff.Due :=
  (run.step i).1.due hdue hbatch (hopen i) (working run hroom hopen i)
    (tracked run hroom (i + 1)).sound.inv.not_failed.1 (hstopped (i + 1))

include hroom hopen hstopped hbatch in
/-- The generator takes an arrival that is due for the worker it is at. -/
theorem reaches_polled_of_filling {n : ℕ} (hdue : (run.state i).handOff.Due)
    (hfilling : (run.state i).handOff.generator.Filling n) :
    ∃ j, i ≤ j ∧ (run.state i).handOff.polledCount < (run.state j).handOff.polledCount := by
  let count := (run.state i).handOff.polledCount
  let Taking := fun n j => count ≤ (run.state j).handOff.polledCount ∧ (run.state j).handOff.Due ∧
    (run.state j).handOff.generator.Filling n
  have hother : ∀ n j, Taking n j → (run.label j).1 ≠ .generator →
      count < (run.state (j + 1)).handOff.polledCount ∨ Taking n (j + 1) := by
    intro n j h hother
    obtain ⟨hcount, hdue, hfilling⟩ := h
    have hstep := (run.step j).1
    rcases Step.due_at run hroom hopen hstopped hbatch hdue with hpolled | hdue'
    · exact .inl (Nat.lt_of_le_of_lt hcount hpolled)
    · exact .inr ⟨Nat.le_trans hcount hstep.polledCount_le, hdue', (hstep.generator_frame hother).2 ▸ hfilling⟩
  have hmove : ∀ n j, Taking n j → (run.label j).1 = .generator →
      count < (run.state (j + 1)).handOff.polledCount ∨ ∃ m < n, Taking m (j + 1) := by
    intro n j h hmove
    obtain ⟨hcount, hdue, hfilling⟩ := h
    have hstep := (run.step j).1
    rcases Step.due_at run hroom hopen hstopped hbatch hdue with hpolled | hdue'
    · exact .inl (Nat.lt_of_le_of_lt hcount hpolled)
    · rcases hstep.filling hmove hdue hfilling hbatch (hopen j) (working run hroom hopen j)
        (tracked run hroom (j + 1)).sound.inv.not_failed.1 (hstopped (j + 1)) with hpolled | ⟨m, hlt, hm⟩
      · exact .inl (Nat.lt_of_le_of_lt hcount hpolled)
      · exact .inr ⟨m, hlt, Nat.le_trans hcount hstep.polledCount_le, hdue', hm⟩
  exact run.reaches .generator (fun _ _ _ => trivial) (P := Taking)
    (Q := fun j => count < (run.state j).handOff.polledCount) hother hmove ⟨Nat.le_refl _, hdue, hfilling⟩

include hroom hopen hstopped hbatch in
theorem due_or_polled {j : ℕ} (hdue : (run.state i).handOff.Due) (hle : i ≤ j) :
    (run.state i).handOff.polledCount < (run.state j).handOff.polledCount ∨ (run.state j).handOff.Due := by
  induction j, hle using Nat.le_induction with
  | base => exact .inr hdue
  | succ j hle ih =>
    have hmono := polledCount_mono run hle
    rcases ih with hpolled | hdue
    · exact .inl (Nat.lt_of_lt_of_le hpolled (run.step j).1.polledCount_le)
    · rcases Step.due_at run hroom hopen hstopped hbatch hdue with hpolled | hdue'
      · exact .inl (Nat.lt_of_le_of_lt hmono hpolled)
      · exact .inr hdue'

include hroom hopen hstopped hbatch in
/-- An arrival that is due is polled. -/
theorem reaches_polled (hworkers : 0 < S.numWorkers) (hdue : (run.state i).handOff.Due) :
    ∃ j, i ≤ j ∧ (run.state i).handOff.polledCount < (run.state j).handOff.polledCount := by
  let first : Fin S.numWorkers := ⟨0, hworkers⟩
  have hnone : [] <+: ((run.state i).handOff.desk first).polled := List.nil_prefix
  obtain ⟨j, hj, hdone, haway, hnum, -⟩ := reaches_free run hroom hopen hstopped hnone
  obtain ⟨k, hk, hidle⟩ := reaches_polling run hroom hopen hdone haway hnum
  obtain ⟨l, hl, hfound⟩ := reaches_expectZero run hroom hopen hstopped hidle rfl
  have hle : i ≤ l := Nat.le_trans hj (Nat.le_trans hk hl)
  rcases due_or_polled run hroom hopen hstopped hbatch hdue hle with hpolled | hdue'
  · exact ⟨l, hle, hpolled⟩
  · have hfilling : (run.state l).handOff.generator.Filling 5 := by
      rw [hfound]
      exact Nat.le_refl 5
    obtain ⟨m, hm, hpolled⟩ := reaches_polled_of_filling run hroom hopen hstopped hbatch hdue' hfilling
    exact ⟨m, Nat.le_trans hle hm, Nat.lt_of_le_of_lt (polledCount_mono run hle) hpolled⟩

end Due

include hroom hopen hstopped in
theorem reaches_launched : ∃ i, ∀ j, i ≤ j → (run.state j).handOff.generator.Launched := by
  obtain ⟨k, hdone⟩ := reaches_done run hroom
  obtain ⟨i, -, henter⟩ := reaches_enter run hroom hopen hstopped hdone
  refine ⟨i, fun j hle => ?_⟩
  induction j, hle using Nat.le_induction with
  | base =>
    rw [henter]
    trivial
  | succ j _ ih =>
    have hstep := (run.step j).1
    by_cases hmove : (run.label j).1 = .generator
    · have hnext := hstep.generator_next hmove (hopen j) (working run hroom hopen j)
      have hstop := hstopped (j + 1)
      rw [hnext] at hstop ⊢
      exact (HandOff.moveGenerator_launched (s := { (run.state j).handOff with clock := (run.label j).2.now }) _ ih).1
        |>.resolve_right fun hzero => hzero.2.elim hstop
    · rw [(hstep.generator_frame hmove).2]
      exact ih

end Fair

/-! ### Every arrival -/

section Open

variable {launched : UInt64} {gap : Nat → UInt64}
  {e : Epistle UInt32 capacity} (run : FairRun (OpenStep launched gap) Prod.fst Ready (Experiment.init S e))
  (hroom : Roomy S e) (hopen : ∀ i, (run.state i).exitAll = false)
  (hnonzero : ∀ n, arrivalTime launched gap n ≠ 0) (hworkers : 0 < S.numWorkers) (hbatch : 0 < S.batch) {i : ℕ}

/-- The run without its draws. -/
def settled : FairRun SettledStep Prod.fst Ready (Experiment.init S e) :=
  run.mono fun _ _ _ hstep => hstep.1

theorem dealings (i : ℕ) : ∃ owners, Dealing launched gap owners (run.state i).handOff := dealing_of_runs (run.runs i)

include hroom hopen hnonzero in
/-- The assert of the ingress queue does not fail. -/
theorem not_stopped (i : ℕ) (w : Fin S.numWorkers) : (run.state i).handOff.generator ≠ .stopped w := by
  induction i with
  | zero =>
    rw [run.start]
    exact fun heq => by cases heq
  | succ i ih =>
    have hstep := (run.step i).1.1
    intro hstopped
    by_cases hmove : (run.label i).1 = .generator
    · rw [hstep.generator_next hmove (hopen i) (working (settled run) hroom hopen i)] at hstopped
      obtain ⟨owners, hdealing⟩ := dealings run i
      rcases HandOff.moveGenerator_stopped hstopped with hbefore | ⟨hlaunched, hzero⟩
      · exact ih hbefore
      · exact hdealing.start_ne_zero hlaunched (tracked (settled run) hroom i).sound.inv.not_failed.1 hnonzero hzero
    · exact ih ((hstep.generator_frame hmove).2 ▸ hstopped)

include hroom hopen hnonzero hworkers hbatch in
/-- The arrivals that the clock passes are polled. -/
theorem reaches_count (n : ℕ) (hclock : ∀ k < n, ∃ i, arrivalTime launched gap k ≤ (run.state i).handOff.clock) :
    ∃ i, n ≤ (run.state i).handOff.polledCount := by
  have hstopped := not_stopped run hroom hopen hnonzero
  induction n with
  | zero => exact ⟨0, Nat.zero_le _⟩
  | succ n ih =>
    obtain ⟨i, hi⟩ := ih fun k hk => hclock k (Nat.lt_succ_of_lt hk)
    obtain ⟨j, hj⟩ := hclock n (Nat.lt_succ_self n)
    obtain ⟨l, hlaunched⟩ := reaches_launched (settled run) hroom hopen hstopped
    obtain ⟨m, hmi, hmj, hml⟩ : ∃ m, i ≤ m ∧ j ≤ m ∧ l ≤ m := ⟨i + j + l, by omega, by omega, by omega⟩
    have hcount := Nat.le_trans hi (polledCount_mono (settled run) hmi)
    rcases Nat.lt_or_eq_of_le hcount with hlt | heq
    · exact ⟨m, hlt⟩
    · obtain ⟨owners, hdealing⟩ := dealings run m
      have hlater : (run.state j).handOff.clock ≤ (run.state m).handOff.clock :=
        run.persists (P := fun s : Experiment S capacity => (run.state j).handOff.clock ≤ s.handOff.clock)
          (fun _ _ _ hle hstep => UInt64.le_trans hle hstep.1.1.clock_le) (UInt64.le_refl _) hmj
      have hnext : owners.length = n := hdealing.count.symm.trans heq.symm
      have hdue : (run.state m).handOff.Due :=
        hdealing.due (hlaunched m hml) (tracked (settled run) hroom m).sound.inv.not_failed.1
          (hnext ▸ UInt64.le_trans hj hlater)
      obtain ⟨k, -, hpolled⟩ := reaches_polled (settled run) hroom hopen hstopped hbatch hworkers hdue
      exact ⟨k, Nat.lt_of_le_of_lt hcount hpolled⟩

include hroom hopen hnonzero hworkers hbatch in
/-- **Every arrival is handled**: the first `n` arrivals, once the clock has passed them, are dealt out to the workers, and each worker records its share of them in order. -/
theorem every_arrival_recorded (n : ℕ)
    (hclock : ∀ k < n, ∃ i, arrivalTime launched gap k ≤ (run.state i).handOff.clock) :
    ∃ owners : List (Fin S.numWorkers), owners.length = n ∧ ∀ w, ∃ j,
      (dealt owners w).map (arrivalTime launched gap) <+:
        ((run.state j).handOff.desk w).recorded.map (·.requestGenerated) := by
  obtain ⟨i, hi⟩ := reaches_count run hroom hopen hnonzero hworkers hbatch n hclock
  obtain ⟨owners, hdealing⟩ := dealings run i
  have hlength : (owners.take n).length = n := by
    rw [List.length_take, ← hdealing.count, Nat.min_eq_left hi]
  refine ⟨owners.take n, hlength, fun w => ?_⟩
  obtain ⟨j, -, hrecorded⟩ := reaches_recorded (settled run) hroom hopen (not_stopped run hroom hopen hnonzero)
    (List.prefix_refl ((run.state i).handOff.desk w).polled)
  refine ⟨j, ?_⟩
  have hshare : dealt (owners.take n) w <+: dealt owners w := by
    have happend := dealt_append (owners.take n) (owners.drop n) w
    rwa [List.take_append_drop] at happend
  calc (dealt (owners.take n) w).map (arrivalTime launched gap)
      <+: (dealt owners w).map (arrivalTime launched gap) := hshare.map _
    _ = ((run.state i).handOff.desk w).polled.map (·.requestGenerated) := (hdealing.polled w).symm
    _ <+: (((run.state j).handOff.desk w).recorded.map (·.toArrival)).map (·.requestGenerated) := hrecorded.map _
    _ = ((run.state j).handOff.desk w).recorded.map (·.requestGenerated) := List.map_map ..

end Open

end Experiment

open Experiment

/-- The next request arrives at once. -/
def steadyLoad : Signal := ⟨{ firstInput with gap := 0 }, false, []⟩

theorem arrivalTime_steady (n : ℕ) : arrivalTime 7 (fun _ => 0) n = 7 := by
  induction n with
  | zero => rfl
  | succ n ih => rw [arrivalTime, ih]; rfl

/-- A table with an entry of an earlier worker, which is still IDLE. -/
def withOldEntry (capacity : Nat) [NeZero capacity] : Epistle UInt32 capacity := Epistle.init.put 0 9 epistleThreadIdle

theorem withOldEntry_roomy : Roomy oneWorker (withOldEntry 4) where
  lacks := by
    unfold Epistle.Lacks
    decide
  blank := by
    unfold Epistle.Blank
    decide
  room := by decide

/-- Three requests that arrive at once are recorded in the end. -/
theorem every_arrival_recorded_steady : ∃ run : FairRun (OpenStep 7 fun _ => 0) Prod.fst Ready
    (Experiment.init oneWorker (withOldEntry 4)), ∃ j,
      [7, 7, 7] <+: ((run.state j).handOff.desk theWorker).recorded.map (·.requestGenerated) := by
  let Going := fun s : Experiment oneWorker 4 => s.exitAll = false ∧ s.handOff.clock ≤ 7
  have hnext : ∀ i s, Going s → ∃ t, OpenStep 7 (fun _ => 0) s (inTurn steadyLoad i) t ∧ Going t := by
    intro i s h
    have hsnd := inTurn_snd steadyLoad i
    rcases hlabel : inTurn steadyLoad i with ⟨thread, signal⟩
    obtain rfl : signal = steadyLoad := by rw [hlabel] at hsnd; exact hsnd
    refine ⟨_, ⟨⟨⟨h.2, rfl⟩, ?_⟩, ?_⟩, (move_exitAll rfl thread).trans h.1, ?_⟩
    · cases thread with
      | main => exact fun _ _ hexit => by cases hexit
      | generator | worker => trivial
    · cases thread with
      | generator => exact ⟨fun _ => rfl, fun _ _ _ => rfl⟩
      | main | worker => trivial
    · rw [move_clock]
      exact UInt64.le_refl 7
  have hstart : Going (Experiment.init oneWorker (withOldEntry 4)) := ⟨rfl, (by decide : (0 : UInt64) ≤ 7)⟩
  obtain ⟨run, hlabel, hinv⟩ := FairRun.exists_of_order Ready (I := Going) (inTurn steadyLoad)
    (inTurn_fair steadyLoad) hstart hnext
  have hclock : ∀ k < 3, ∃ i, arrivalTime 7 (fun _ => 0) k ≤ (run.state i).handOff.clock := by
    intro k _
    refine ⟨1, ?_⟩
    rw [arrivalTime_steady, (run.step 0).1.1.2, move_clock, hlabel, inTurn_snd]
    exact UInt64.le_refl 7
  have hnonzero : ∀ n, arrivalTime 7 (fun _ => 0) n ≠ 0 := by
    intro n
    rw [arrivalTime_steady]
    decide
  obtain ⟨owners, hlength, hrecorded⟩ := every_arrival_recorded run withOldEntry_roomy (fun i => (hinv i).1)
    hnonzero (by decide) (by decide) 3 hclock
  obtain rfl : owners = List.replicate 3 theWorker :=
    List.eq_replicate_iff.mpr ⟨hlength, fun _ _ => Subsingleton.elim (α := Fin 1) ..⟩
  obtain ⟨j, hj⟩ := hrecorded theWorker
  exact ⟨run, j, hj⟩

end Workload

end CosUserspace
