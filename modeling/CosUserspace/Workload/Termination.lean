import CosUserspace.Library.Fairness
import CosUserspace.Workload.Ready
import CosUserspace.Workload.Throughput

/-!
# Every experiment ends

In a fair run every thread that stays ready moves again and again, in any order; a worker that the epistle calls IDLE need not. If `should_exit` is set at some time, such a run of the workload ends: `main` gets all workers set up and tells them to exit, the generator leaves its round and marks the workers over and over, so that each of them gets to test `exit_all`, and `main` joins them one after the other and at last the generator. Nobody waits for ever, since a worker and the generator make a bounded number of accesses between two tests of their flags.
-/

namespace CosUserspace

namespace Workload

open Epistle.Clients (Bounded)

variable {capacity : Nat} [NeZero capacity] {S : Setup}

namespace Experiment

variable {s t : Experiment S capacity} {action : Thread S.numWorkers × Signal}

/-! ### A fair run -/

section Fair

variable {e : Epistle UInt32 capacity} (run : FairRun SettledStep Prod.fst Ready (Experiment.init S e))
  (hroom : Roomy S e) {i : ℕ}

include hroom in
theorem tracked (i : ℕ) : Tracked (run.state i) := tracked_of_runs hroom (run.runs i)

include hroom in
/-- Every worker announces itself. -/
theorem reaches_lock (w : Fin S.numWorkers) : ∃ i, ((run.state i).handOff.desk w).lock = true := by
  have hother : ∀ i, ((run.state i).handOff.desk w).lock = false → (run.label i).1 ≠ .worker w →
      ((run.state (i + 1)).handOff.desk w).lock = true ∨ ((run.state (i + 1)).handOff.desk w).lock = false := by
    intro i _ _
    cases ((run.state (i + 1)).handOff.desk w).lock <;> simp
  have hmove : ∀ i, ((run.state i).handOff.desk w).lock = false → (run.label i).1 = .worker w →
      ((run.state (i + 1)).handOff.desk w).lock = true := by
    intro i hlock hmove
    obtain ⟨hpc, hinside⟩ := (tracked run hroom i).sound.lively.announced w hlock
    have hstep := (run.step i).1
    rcases hlabel : run.label i with ⟨thread, signal⟩
    rw [hlabel] at hstep hmove
    obtain rfl : thread = .worker w := hmove
    rw [hstep.2]
    show ((moveWorker w _ _).handOff.desk w).lock = true
    have hself :
        (({ (run.state i).handOff with clock := signal.now } : HandOff S capacity).moveWorker w signal.now).desk w =
        (((run.state i).handOff.desk w).move S.batch (S.tid w) signal.now (run.state i).handOff.epistle).2 :=
      Function.update_self ..
    simp only [moveWorker, hinside]
    rw [hself, Desk.move, hpc]
  have hready : ∀ i, ((run.state i).handOff.desk w).lock = false → Ready (.worker w) (run.state i) := by
    intro i hlock
    obtain ⟨hpc, -⟩ := (tracked run hroom i).sound.lively.announced w hlock
    apply (tracked run hroom i).sound.inv.ready
    rw [hpc]
    exact id
  have hstart : ((run.state 0).handOff.desk w).lock = false := by
    rw [run.start]
    rfl
  obtain ⟨i, -, hlock⟩ := run.reaches_once (.worker w) (P := fun i => ((run.state i).handOff.desk w).lock = false)
    (Q := fun i => ((run.state i).handOff.desk w).lock = true) hready hother hmove hstart
  exact ⟨i, hlock⟩

/-- How many accesses `main` has ahead while it sets the workers up. -/
def setUpAccesses (S : Setup) : MainPc → Nat
  | .wait i => 2 * (S.numWorkers - i) + 2
  | .insert i => 2 * (S.numWorkers - i) + 1
  | .release => 1
  | .done => 0

omit [NeZero capacity] in
/-- Each access of `main` gets it on, once all workers have announced themselves. -/
theorem moveMain_setUp {s : HandOff S capacity} (hlock : ∀ w, (s.desk w).lock = true)
    (hinsert : ∀ k, s.main = .insert k → k < S.numWorkers) (hnot : s.main ≠ .done) :
    setUpAccesses S s.moveMain.main < setUpAccesses S s.main := by
  unfold HandOff.moveMain
  cases hpc : s.main with
  | wait k =>
    dsimp only
    split
    · rename_i hk
      rw [if_pos (hlock ⟨k, hk⟩)]
      simp only [setUpAccesses]
      omega
    · simp only [setUpAccesses]
      omega
  | insert k =>
    have hk := hinsert k hpc
    simp only [dif_pos hk, setUpAccesses]
    omega
  | release => simp [setUpAccesses]
  | done => exact absurd hpc hnot

include hroom in
/-- `main` gets the workers set up. -/
theorem reaches_done : ∃ i, (run.state i).handOff.main = .done := by
  obtain ⟨i, hlocks⟩ := run.exists_all (P := fun w (s : Experiment S capacity) => (s.handOff.desk w).lock = true)
    (fun w _ _ _ hlock hstep => hstep.1.lock_stays hlock) (reaches_lock run hroom)
  -- the locks are set, and `main` has `n` accesses ahead
  let SetUp := fun n i => (∀ w, ((run.state i).handOff.desk w).lock = true) ∧
    (run.state i).handOff.main ≠ .done ∧ setUpAccesses S (run.state i).handOff.main = n
  have hother : ∀ n i, SetUp n i → (run.label i).1 ≠ .main →
      (run.state (i + 1)).handOff.main = .done ∨ SetUp n (i + 1) := by
    intro n i h hother
    obtain ⟨hlocks, hnot, hn⟩ := h
    have hstep := (run.step i).1
    have hsame := (hstep.main_frame hother).2.1
    exact .inr ⟨fun w => hstep.lock_stays (hlocks w), hsame ▸ hnot, hsame ▸ hn⟩
  have hmove : ∀ n i, SetUp n i → (run.label i).1 = .main →
      (run.state (i + 1)).handOff.main = .done ∨ ∃ m < n, SetUp m (i + 1) := by
    intro n i h hmove
    obtain ⟨hlocks, hnot, hn⟩ := h
    have htracked := tracked run hroom i
    have hstep := (run.step i).1
    have hrunning : (run.state i).main = .running := by
      by_contra hnotRunning
      exact hnot (htracked.sound.inv.done (htracked.sound.inv.running.mpr hnotRunning))
    by_cases hdone : (run.state (i + 1)).handOff.main = .done
    · exact .inl hdone
    · right
      refine ⟨_, ?_, fun w => hstep.lock_stays (hlocks w), hdone, rfl⟩
      rcases hlabel : run.label i with ⟨thread, signal⟩
      rw [hlabel] at hstep hmove
      obtain rfl : thread = .main := hmove
      have hnext : (run.state (i + 1)).handOff =
          ({ (run.state i).handOff with clock := signal.now } : HandOff S capacity).moveMain := by
        rw [hstep.2]
        show (moveMain _ _).handOff = _
        simp only [moveMain, hrunning, if_neg hnot]
      rw [hnext, ← hn]
      exact moveMain_setUp (s := { (run.state i).handOff with clock := signal.now }) hlocks htracked.insert_lt hnot
  by_cases hdone : (run.state i).handOff.main = .done
  · exact ⟨i, hdone⟩
  · obtain ⟨j, -, hj⟩ := run.reaches .main (fun _ _ _ => trivial) (P := SetUp)
      (Q := fun i => (run.state i).handOff.main = .done) hother hmove ⟨hlocks, hdone, rfl⟩
    exact ⟨j, hj⟩

include hroom in
/-- `main` tells everybody to exit, once a signal has come. -/
theorem reaches_exitAll (hsignal : ∃ i, ∀ j, i ≤ j → (run.label j).1 = .main → (run.label j).2.shouldExit = true) :
    ∃ i, (run.state i).exitAll = true := by
  obtain ⟨k, hdone⟩ := reaches_done run hroom
  obtain ⟨l, hsignal⟩ := hsignal
  have hother : ∀ i, (l ≤ i ∧ (run.state i).handOff.main = .done) → (run.label i).1 ≠ .main →
      (run.state (i + 1)).exitAll = true ∨ (l ≤ i + 1 ∧ (run.state (i + 1)).handOff.main = .done) :=
    fun i h _ => .inr ⟨Nat.le_succ_of_le h.1, (run.step i).1.done_stays h.2⟩
  have hmove : ∀ i, (l ≤ i ∧ (run.state i).handOff.main = .done) → (run.label i).1 = .main →
      (run.state (i + 1)).exitAll = true := by
    intro i h hmove
    obtain ⟨hle, hdone⟩ := h
    have hshould := hsignal i hle hmove
    have hstep := (run.step i).1
    by_cases hexit : (run.state i).exitAll = true
    · exact hstep.exitAll_stays hexit
    · have hrunning : (run.state i).main = .running := by
        by_contra hnot
        exact hexit ((tracked run hroom i).sound.inv.running.mpr hnot)
      rcases hlabel : run.label i with ⟨thread, signal⟩
      rw [hlabel] at hstep hmove hshould
      obtain rfl : thread = .main := hmove
      rw [hstep.2]
      show (moveMain _ _).exitAll = true
      simp only [moveMain, hrunning, hdone, if_true]
      rw [if_pos hshould]
  have hstart : (run.state (max k l)).handOff.main = .done :=
    run.persists (P := fun s : Experiment S capacity => s.handOff.main = .done)
      (fun _ _ _ hdone hstep => hstep.1.done_stays hdone) hdone (Nat.le_max_left k l)
  obtain ⟨i, -, hexit⟩ := run.reaches_once .main (fun _ _ => trivial)
    (P := fun i => l ≤ i ∧ (run.state i).handOff.main = .done) (Q := fun i => (run.state i).exitAll = true) hother hmove ⟨Nat.le_max_right k l, hstart⟩
  exact ⟨i, hexit⟩

/-! ### The generator leaves its rounds -/

/-- The generator goes on with its round, or leaves its first loop at the end of it. -/
theorem Step.ahead {n : ℕ} (hstep : Step s action t) (hmove : action.1 = .generator) (hs : Sound s) (ht : Sound t)
    (hstopped : ∀ w, s.handOff.generator ≠ .stopped w) (hexit : s.exitAll = true) (hworking : s.generator = .working)
    (hahead : Ahead S s.handOff.epistle.occ n s.handOff.generator) :
    t.generator ≠ .working ∨ ∃ m < n, t.generator = .working ∧ Ahead S t.handOff.epistle.occ m t.handOff.generator := by
  obtain ⟨slot, hfree'⟩ := ht.free
  have hfree := hstep.free_before hfree'
  obtain ⟨thread, signal⟩ := action
  obtain ⟨-, rfl⟩ := hstep
  obtain rfl : thread = .generator := hmove
  by_cases henter : s.handOff.generator = .enter 0
  · left
    show (moveGenerator _ _).generator ≠ .working
    simp [moveGenerator, hworking, henter, hexit]
  · right
    obtain ⟨startTime, hnext⟩ := moveGenerator_working signal.toInput
      (s := { s with handOff := { s.handOff with clock := signal.now } }) hworking fun h => henter h.1
    change s.move .generator signal = _ at hnext
    rw [hnext] at hfree' ⊢
    obtain ⟨m, hlt, hm⟩ := Ahead.move (s := { s.handOff with clock := signal.now }) hahead
      (fun _ => hs.lively.released (hs.inv.done hexit)) henter hstopped hs.inv.not_failed.1 hfree hfree'
    exact ⟨m, hlt, hworking, hm⟩

include hroom in
theorem reaches_not_working (hstopped : ∀ i w, (run.state i).handOff.generator ≠ .stopped w)
    (hexit : (run.state i).exitAll = true) : ∃ j, i ≤ j ∧ (run.state j).generator ≠ .working := by
  let Working := fun n i => (run.state i).exitAll = true ∧ (run.state i).generator = .working ∧
    Ahead S (run.state i).handOff.epistle.occ n (run.state i).handOff.generator
  have hother : ∀ n i, Working n i → (run.label i).1 ≠ .generator →
      (run.state (i + 1)).generator ≠ .working ∨ Working n (i + 1) := by
    intro n i h hother
    obtain ⟨hexit, hworking, hahead⟩ := h
    have hstep := (run.step i).1
    obtain ⟨hlife, hpc⟩ := hstep.generator_frame hother
    refine .inr ⟨hstep.exitAll_stays hexit, hlife.trans hworking, ?_⟩
    rw [hpc]
    exact hahead.mono hstep.keeps
  have hmove : ∀ n i, Working n i → (run.label i).1 = .generator →
      (run.state (i + 1)).generator ≠ .working ∨ ∃ m < n, Working m (i + 1) := by
    intro n i h hmove
    obtain ⟨hexit, hworking, hahead⟩ := h
    have hstep := (run.step i).1
    rcases hstep.ahead hmove (tracked run hroom i).sound (tracked run hroom (i + 1)).sound (hstopped i) hexit hworking
      hahead with hleft | ⟨m, hlt, hworking', hahead'⟩
    · exact .inl hleft
    · exact .inr ⟨m, hlt, hstep.exitAll_stays hexit, hworking', hahead'⟩
  by_cases hworking : (run.state i).generator = .working
  · obtain ⟨n, hahead⟩ := (tracked run hroom i).sound.lively.ahead hworking
    exact run.reaches .generator (fun _ _ _ => trivial) (P := Working)
      (Q := fun i => (run.state i).generator ≠ .working) hother hmove ⟨hexit, hworking, hahead⟩
  · exact ⟨i, Nat.le_refl i, hworking⟩

/-! ### The workers exit -/

/-- A worker that has not exited counts its accesses since `exit_all` was set. -/
theorem Step.late_succ {w : Fin S.numWorkers} (hstep : Step s action t) (hmove : action.1 = .worker w)
    (hexit : s.exitAll = true) (hnot : s.worker w ≠ .exited) : t.late w = s.late w + 1 := by
  obtain ⟨thread, signal⟩ := action
  obtain ⟨-, rfl⟩ := hstep
  obtain rfl : thread = .worker w := hmove
  show (moveWorker w _ _).late w = _
  cases hlife : s.worker w with
  | exited => exact absurd hlife hnot
  | head | inside =>
    simp only [moveWorker, hlife, hexit, if_true]
    exact Function.update_self ..

/-- The worker has been told to exit, the generator has left its rounds, and the worker has at most `n` accesses ahead. -/
structure Late (w : Fin S.numWorkers) (n : ℕ) (s : Experiment S capacity) : Prop where
  exitAll : s.exitAll = true
  closed : s.generator ≠ .working
  goes : s.worker w ≠ .exited
  late : roundAccesses S.batch capacity + 1 ≤ s.late w + n

theorem Step.late_stays {w : Fin S.numWorkers} {n : ℕ} (hstep : Step s action t) (hother : action.1 ≠ .worker w)
    (h : Late w n s) : Late w n t := by
  obtain ⟨hlife, hlate, -⟩ := hstep.worker_frame hother
  exact ⟨hstep.exitAll_stays h.exitAll, hstep.not_working_stays h.closed, hlife ▸ h.goes, hlate ▸ h.late⟩

theorem Step.late_move {w : Fin S.numWorkers} {n : ℕ} (hstep : Step s action t) (hmove : action.1 = .worker w)
    (hs : Sound s) (h : Late w n s) : t.worker w = .exited ∨ ∃ m < n, Late w m t := by
  obtain ⟨slot, hfree⟩ := hs.free
  have hspent : s.spent w ≤ roundAccesses S.batch capacity := by
    cases hlife : s.worker w with
    | head => exact (hs.budgets.head w hlife).2
    | inside => exact (hs.budgets.inside w hlife).le hfree (hs.inv.not_failed.2 w)
    | exited => exact absurd hlife h.goes
  have hlate := hs.budgets.late w h.goes
  have hsucc := hstep.late_succ hmove h.exitAll h.goes
  have hn := h.late
  by_cases hexited : t.worker w = .exited
  · exact .inl hexited
  · exact .inr ⟨n - 1, by omega, hstep.exitAll_stays h.exitAll, hstep.not_working_stays h.closed, hexited, by omega⟩

include hroom in
/-- A worker that has not exited moves again: the generator gets it ready. -/
theorem reaches_move {w : Fin S.numWorkers} {n : ℕ} (hlate : Late w n (run.state i)) :
    ∃ j, i ≤ j ∧ Late w n (run.state j) ∧ (run.label j).1 = .worker w := by
  have htracked := tracked run hroom
  obtain ⟨m, hahead⟩ := markAhead_exists (w := w) (htracked i).sound.lively hlate.closed
    ((htracked i).generator_goes hlate.goes).2
  refine run.until_move_of_helper (.worker w) .generator (P := fun i => Late w n (run.state i))
    (H := fun m i => MarkAhead w m (run.state i)) (fun _ _ _ _ => trivial) ?_ ?_ ?_ ?_ hlate hahead
  · exact fun i h hother => (run.step i).1.late_stays hother h
  · intro m i h hahead _ hgenerator
    have hstep := (run.step i).1
    have hlife := (hstep.generator_frame hgenerator).1
    refine .inr (hahead.imp (fun hhead => ⟨hlife.trans hhead.1, hhead.2⟩) ?_)
    rintro ⟨v, pc, count, hmark, hbounded, hm⟩
    exact ⟨v, pc, count, hlife.trans hmark, hbounded.mono hstep.keeps, hm⟩
  · intro m i h hahead _ hmove
    exact (run.step i).1.mark_ahead hmove (htracked i).sound (htracked (i + 1)).sound
      ((htracked i).generator_goes h.goes).1 h.goes hahead
  · exact fun i h hready hother => (run.step i).1.ready_stays (htracked i).sound.inv h.closed hother hready

include hroom in
/-- Every worker exits. -/
theorem reaches_exited (hstopped : ∀ i w, (run.state i).handOff.generator ≠ .stopped w)
    (hexit : (run.state i).exitAll = true) (w : Fin S.numWorkers) : ∃ j, (run.state j).worker w = .exited := by
  obtain ⟨j, hj, hclosed⟩ := reaches_not_working run hroom hstopped hexit
  have hexit' : (run.state j).exitAll = true :=
    run.persists (P := fun s : Experiment S capacity => s.exitAll = true)
      (fun _ _ _ hexit hstep => hstep.1.exitAll_stays hexit) hexit hj
  by_cases hexited : (run.state j).worker w = .exited
  · exact ⟨j, hexited⟩
  · obtain ⟨k, -, hk⟩ := run.reaches_of_moves (.worker w) (P := fun n i => Late w n (run.state i))
      (Q := fun i => (run.state i).worker w = .exited) (fun _ _ h => .inr (reaches_move run hroom h))
      (fun _ i h hmove => (run.step i).1.late_move hmove (tracked run hroom i).sound h)
      ⟨hexit', hclosed, hexited, Nat.le_add_left ..⟩
    exact ⟨k, hk⟩

/-! ### The results are printed -/

/-- At least a second is tracked by the runtime that `main` has taken, and nothing has stopped it. -/
structure Prints (s : Experiment S capacity) : Prop where
  second : s.main ≠ .running → s.main ≠ .print false → ns2s ≤ s.runtime - S.options.discarded
  goes : ∀ again stop, s.main ≠ .stopped again stop

/-- The results are printed when a second is tracked. -/
theorem printed_eq {options : Options} {runtime : UInt64} (hsecond : ns2s ≤ runtime - options.discarded)
    (startTime : UInt64) (requests : List (UInt32 × List Request)) (again : Bool) :
    printed options startTime runtime requests again = if again then .finished else .join 0 := by
  obtain ⟨lines, hlines⟩ : ∃ lines, printResults options startTime.toInt64 requests runtime = .ok lines :=
    printResults_ok hsecond
  rw [printed, hlines]

theorem Step.prints (hstep : Step s action t) (hprints : Prints s)
    (hsecond : action.1 = .main → s.main = .print false → ns2s ≤ action.2.now - s.startTime - S.options.discarded) :
    Prints t := by
  by_cases hmain : action.1 = .main
  · obtain ⟨thread, signal⟩ := action
    obtain ⟨-, rfl⟩ := hstep
    obtain rfl : thread = .main := hmain
    show Prints (moveMain _ _)
    cases hpc : s.main with
    | running =>
      have hkeep : ∀ {handOff exitAll} {main : ExitPc}, main = .running ∨ main = .print false →
          Prints { s with handOff, exitAll, main } := by
        rintro handOff exitAll main (rfl | rfl) <;> constructor <;> simp
      simp only [moveMain]
      split
      · split
        · exact hkeep (.inr rfl)
        · exact hkeep (.inl rfl)
      · exact hkeep (.inl rfl)
    | print again =>
      cases again with
      | false =>
        simp only [moveMain]
        rw [printed_eq (hsecond rfl hpc)]
        exact ⟨fun _ _ => hsecond rfl hpc, by simp⟩
      | true =>
        have htracked := hprints.second (by simp [hpc]) (by simp [hpc])
        simp only [moveMain]
        rw [printed_eq htracked]
        exact ⟨fun _ _ => htracked, by simp⟩
    | join i =>
      have htracked := hprints.second (by simp [hpc]) (by simp [hpc])
      simp only [moveMain]
      split
      · split <;> exact ⟨fun _ _ => htracked, by simp⟩
      · exact ⟨fun _ _ => htracked, by simp⟩
    | joinGenerator =>
      have htracked := hprints.second (by simp [hpc]) (by simp [hpc])
      simp only [moveMain]
      split <;> exact ⟨fun _ _ => htracked, by simp⟩
    | finished =>
      have htracked := hprints.second (by simp [hpc]) (by simp [hpc])
      simp only [moveMain]
      exact ⟨fun _ _ => htracked, by simp⟩
    | stopped again stop => exact absurd hpc (hprints.goes again stop)
  · obtain ⟨hpc, hruntime⟩ := hstep.runtime_frame hmain
    constructor
    · rw [hpc, hruntime]
      exact hprints.second
    · rw [hpc]
      exact hprints.goes

section Printing

variable (hsecond : ∀ i, (run.label i).1 = .main → (run.state i).main = .print false →
  ns2s ≤ (run.label i).2.now - (run.state i).startTime - S.options.discarded)

include hsecond in
theorem prints (i : ℕ) : Prints (run.state i) := by
  induction i with
  | zero =>
    rw [run.start]
    constructor <;> simp [Experiment.init]
  | succ i ih => exact (run.step i).1.prints ih (hsecond i)

/-- How many accesses `main` has ahead up to the join of the generator, once the workers have exited. -/
def joinAccesses (S : Setup) : ExitPc → Nat
  | .print false => S.numWorkers + 1
  | .join k => S.numWorkers - k
  | .running | .print true | .joinGenerator | .finished | .stopped _ _ => 0

include hroom hsecond in
/-- `main` prints the results, and joins the workers one after the other. -/
theorem reaches_exitGenerator (hstopped : ∀ i w, (run.state i).handOff.generator ≠ .stopped w)
    (hexit : (run.state i).exitAll = true) : ∃ j, (run.state j).exitGenerator = true := by
  obtain ⟨k, hexited⟩ := run.exists_all (P := fun w (s : Experiment S capacity) => s.worker w = .exited)
    (fun w _ _ _ hexited hstep => hstep.1.exited_stays hexited) (reaches_exited run hroom hstopped hexit)
  let Joining := fun n i => (run.state i).exitAll = true ∧ (∀ w, (run.state i).worker w = .exited) ∧
    (run.state i).exitGenerator = false ∧ joinAccesses S (run.state i).main = n
  have hkeep : ∀ i, (run.state i).exitAll = true → (∀ w, (run.state i).worker w = .exited) →
      (run.state (i + 1)).exitAll = true ∧ ∀ w, (run.state (i + 1)).worker w = .exited :=
    fun i hexit hexited =>
      ⟨(run.step i).1.exitAll_stays hexit, fun w => (run.step i).1.exited_stays (hexited w)⟩
  have hother : ∀ n i, Joining n i → (run.label i).1 ≠ .main →
      (run.state (i + 1)).exitGenerator = true ∨ Joining n (i + 1) := by
    intro n i h hother
    obtain ⟨hexit, hexited, hnot, hn⟩ := h
    obtain ⟨hmain, -, -, hsame⟩ := (run.step i).1.main_frame hother
    obtain ⟨hexit', hexited'⟩ := hkeep i hexit hexited
    exact .inr ⟨hexit', hexited', hsame.trans hnot, hmain ▸ hn⟩
  have hmove : ∀ n i, Joining n i → (run.label i).1 = .main →
      (run.state (i + 1)).exitGenerator = true ∨ ∃ m < n, Joining m (i + 1) := by
    intro n i h hmove
    obtain ⟨hexit, hexited, hnot, hn⟩ := h
    obtain ⟨hexit', hexited'⟩ := hkeep i hexit hexited
    have htracked := tracked run hroom i
    have hprints := prints run hsecond i
    have hprinting := hsecond i hmove
    have hstep := (run.step i).1
    rcases hlabel : run.label i with ⟨thread, signal⟩
    rw [hlabel] at hstep hmove hprinting
    obtain rfl : thread = .main := hmove
    have heq := htracked.exitGenerator_eq.symm.trans hnot
    cases hmain : (run.state i).main with
    | running => exact absurd hmain (htracked.sound.inv.running.mp hexit)
    | joinGenerator | finished =>
      rw [hmain] at heq
      cases heq
    | stopped again stop => exact absurd hmain (hprints.goes again stop)
    | print again =>
      cases again with
      | true =>
        rw [hmain] at heq
        cases heq
      | false =>
        right
        rw [hmain, joinAccesses] at hn
        have hnext : (run.state (i + 1)).main = .join 0 ∧ (run.state (i + 1)).exitGenerator = false := by
          rw [hstep.2]
          show (moveMain _ _).main = _ ∧ (moveMain _ _).exitGenerator = _
          simp only [moveMain, hmain]
          exact ⟨printed_eq (hprinting hmain) _ _ _, hnot⟩
        refine ⟨S.numWorkers, by omega, hexit', hexited', hnext.2, ?_⟩
        rw [hnext.1, joinAccesses]
        omega
    | join k =>
      rw [hmain, joinAccesses] at hn
      by_cases hk : k < S.numWorkers
      · right
        have hnext : (run.state (i + 1)).main = .join (k + 1) ∧ (run.state (i + 1)).exitGenerator = false := by
          rw [hstep.2]
          show (moveMain _ _).main = _ ∧ (moveMain _ _).exitGenerator = _
          simp only [moveMain, hmain, dif_pos hk, hexited, if_true]
          exact ⟨trivial, hnot⟩
        refine ⟨S.numWorkers - (k + 1), by omega, hexit', hexited', hnext.2, ?_⟩
        rw [hnext.1, joinAccesses]
      · left
        rw [hstep.2]
        show (moveMain _ _).exitGenerator = _
        simp only [moveMain, hmain, dif_neg hk]
  have hexit' : (run.state (max i k)).exitAll = true :=
    run.persists (P := fun s : Experiment S capacity => s.exitAll = true)
      (fun _ _ _ hexit hstep => hstep.1.exitAll_stays hexit) hexit (Nat.le_max_left i k)
  have hexited' : ∀ w, (run.state (max i k)).worker w = .exited := fun w =>
    run.persists (P := fun s : Experiment S capacity => s.worker w = .exited)
      (fun _ _ _ hexited hstep => hstep.1.exited_stays hexited) (hexited w) (Nat.le_max_right i k)
  cases hgenerator : (run.state (max i k)).exitGenerator with
  | true => exact ⟨_, hgenerator⟩
  | false =>
    obtain ⟨j, -, hj⟩ := run.reaches .main (fun _ _ _ => trivial) (P := Joining)
      (Q := fun i => (run.state i).exitGenerator = true) hother hmove ⟨hexit', hexited', hgenerator, rfl⟩
    exact ⟨j, hj⟩

end Printing

/-! ### The generator exits -/

/-- The generator is back at `while(!exit_generator)` after `n` accesses. -/
def MarksAhead (n : ℕ) (s : Experiment S capacity) : Prop :=
  s.generator = .head ∨ ∃ w pc count, s.generator = .mark w pc ∧
    Bounded s.handOff.epistle.occ count (.adding (S.tid w) epistleThreadRunnable pc) ∧
    (S.numWorkers - w) * callAccesses capacity ≤ n + count

/-- The rest of the loop, from the worker `i` on. -/
theorem marksAhead_nextMark {n k : ℕ} (hlife : s.generator = nextMark S k)
    (hn : (S.numWorkers - k) * callAccesses capacity ≤ n) : MarksAhead n s := by
  unfold nextMark at hlife
  split at hlife
  · exact .inr ⟨_, _, 0, hlife, .start s.handOff.epistle.occ _, hn⟩
  · exact .inl hlife

theorem Step.marks {n : ℕ} (hstep : Step s action t) (hmove : action.1 = .generator) (ht : Sound t)
    (hexit : s.exitGenerator = true) (hmarks : MarksAhead n s) :
    t.generator = .exited ∨ ∃ m < n, MarksAhead m t := by
  obtain ⟨slot, hfree'⟩ := ht.free
  have hfree := hstep.free_before hfree'
  obtain ⟨thread, signal⟩ := action
  obtain ⟨-, rfl⟩ := hstep
  obtain rfl : thread = .generator := hmove
  rcases hmarks with hhead | ⟨w, pc, count, hmark, hbounded, hn⟩
  · left
    show (moveGenerator _ _).generator = .exited
    simp only [moveGenerator, hhead, hexit, if_true]
  · right
    have hcount := count_lt hbounded (by simp) hfree
    obtain ⟨rest, hrest⟩ : ∃ rest, S.numWorkers - w = rest + 1 := ⟨S.numWorkers - w - 1, by omega⟩
    have hrest' : S.numWorkers - (w + 1) = rest := by omega
    have hsplit : (rest + 1) * callAccesses capacity = rest * callAccesses capacity + callAccesses capacity :=
      Nat.succ_mul ..
    rw [hrest, hsplit] at hn
    rcases hadd : Epistle.addMove (S.tid w) epistleThreadRunnable s.handOff.epistle pc with ⟨pc', e'⟩
    have hnext : s.move .generator signal = { s with
        handOff := { s.handOff with clock := signal.now, epistle := e' }
        generator := if pc' = .returned then nextMark S (w + 1) else .mark w pc' } := by
      show moveGenerator _ _ = _
      simp only [moveGenerator, hmark, hadd]
      cases pc' <;> rfl
    rw [hnext] at hfree' ⊢
    rcases adding_cases (S.tid_ne_zero w) hbounded hadd hfree' with ⟨rfl, -⟩ | ⟨hnot, hbounded'⟩
    · refine ⟨n - 1, by omega, marksAhead_nextMark (k := w + 1) (by simp) ?_⟩
      rw [hrest']
      omega
    · refine ⟨n - 1, by omega, .inr ⟨w, pc', count + 1, by simp [hnot], hbounded', ?_⟩⟩
      rw [hrest, hsplit]
      omega

include hroom in
theorem reaches_generator_exited (hexit : (run.state i).exitGenerator = true)
    (hnot : (run.state i).generator ≠ .working) :
    ∃ j, i ≤ j ∧ ((run.state j).exitGenerator = true ∧ (run.state j).generator = .exited) := by
  let Marking := fun n i => (run.state i).exitGenerator = true ∧ MarksAhead n (run.state i)
  have hstays : ∀ i, (run.state i).exitGenerator = true → (run.state (i + 1)).exitGenerator = true :=
    fun i hexit => (run.step i).1.exitGenerator_stays hexit
  have hother : ∀ n i, Marking n i → (run.label i).1 ≠ .generator →
      ((run.state (i + 1)).exitGenerator = true ∧ (run.state (i + 1)).generator = .exited) ∨ Marking n (i + 1) := by
    intro n i h hother
    obtain ⟨hexit, hmarks⟩ := h
    have hstep := (run.step i).1
    have hlife := (hstep.generator_frame hother).1
    refine .inr ⟨hstays i hexit, ?_⟩
    rcases hmarks with hhead | ⟨w, pc, count, hmark, hbounded, hn⟩
    · exact .inl (hlife.trans hhead)
    · exact .inr ⟨w, pc, count, hlife.trans hmark, hbounded.mono hstep.keeps, hn⟩
  have hmove : ∀ n i, Marking n i → (run.label i).1 = .generator →
      ((run.state (i + 1)).exitGenerator = true ∧ (run.state (i + 1)).generator = .exited) ∨
        ∃ m < n, Marking m (i + 1) := by
    intro n i h hmove
    obtain ⟨hexit, hmarks⟩ := h
    rcases (run.step i).1.marks hmove (tracked run hroom (i + 1)).sound hexit hmarks with hexited | ⟨m, hlt, hm⟩
    · exact .inl ⟨hstays i hexit, hexited⟩
    · exact .inr ⟨m, hlt, hstays i hexit, hm⟩
  cases hlife : (run.state i).generator with
  | working => exact absurd hlife hnot
  | exited => exact ⟨i, Nat.le_refl i, hexit, hlife⟩
  | head =>
    exact run.reaches .generator (fun _ _ _ => trivial) (P := Marking)
      (Q := fun i => (run.state i).exitGenerator = true ∧ (run.state i).generator = .exited) hother hmove (n := 0)
      ⟨hexit, .inl hlife⟩
  | mark w pc =>
    obtain ⟨count, hbounded⟩ := (tracked run hroom i).sound.lively.marking w pc hlife
    exact run.reaches .generator (fun _ _ _ => trivial) (P := Marking)
      (Q := fun i => (run.state i).exitGenerator = true ∧ (run.state i).generator = .exited) hother hmove
      ⟨hexit, .inr ⟨w, pc, count, hlife, hbounded, Nat.le_add_right _ _⟩⟩

section Printing

variable (hsecond : ∀ i, (run.label i).1 = .main → (run.state i).main = .print false →
  ns2s ≤ (run.label i).2.now - (run.state i).startTime - S.options.discarded)

/-- How many accesses `main` has ahead once it may join the generator. -/
def endAccesses : ExitPc → Nat
  | .joinGenerator => 2
  | .print true => 1
  | .running | .print false | .join _ | .finished | .stopped _ _ => 0

include hroom hsecond in
/-- `main` joins the generator, and prints the results again. -/
theorem reaches_finished (hexit : (run.state i).exitGenerator = true) (hexited : (run.state i).generator = .exited) :
    ∃ j, (run.state j).main = .finished := by
  let Joining := fun n i => (run.state i).exitGenerator = true ∧ (run.state i).generator = .exited ∧
    endAccesses (run.state i).main = n
  have hkeep : ∀ i, (run.state i).exitGenerator = true → (run.state i).generator = .exited →
      (run.state (i + 1)).exitGenerator = true ∧ (run.state (i + 1)).generator = .exited := fun i hexit hexited =>
    ⟨(run.step i).1.exitGenerator_stays hexit, (run.step i).1.generator_exited_stays hexited⟩
  have hother : ∀ n i, Joining n i → (run.label i).1 ≠ .main →
      (run.state (i + 1)).main = .finished ∨ Joining n (i + 1) := by
    intro n i h hother
    obtain ⟨hexit, hexited, hn⟩ := h
    obtain ⟨hexit', hexited'⟩ := hkeep i hexit hexited
    exact .inr ⟨hexit', hexited', ((run.step i).1.main_frame hother).1 ▸ hn⟩
  have hmove : ∀ n i, Joining n i → (run.label i).1 = .main →
      (run.state (i + 1)).main = .finished ∨ ∃ m < n, Joining m (i + 1) := by
    intro n i h hmove
    obtain ⟨hexit, hexited, hn⟩ := h
    obtain ⟨hexit', hexited'⟩ := hkeep i hexit hexited
    have heq := (tracked run hroom i).exitGenerator_eq.symm.trans hexit
    have hprints := prints run hsecond i
    have hstep := (run.step i).1
    rcases hlabel : run.label i with ⟨thread, signal⟩
    rw [hlabel] at hstep hmove
    obtain rfl : thread = .main := hmove
    cases hmain : (run.state i).main with
    | running | join k =>
      rw [hmain] at heq
      cases heq
    | stopped again stop => exact absurd hmain (hprints.goes again stop)
    | finished =>
      left
      rw [hstep.2]
      show (moveMain _ _).main = _
      simp only [moveMain, hmain]
    | joinGenerator =>
      right
      rw [hmain, endAccesses] at hn
      refine ⟨1, by omega, hexit', hexited', ?_⟩
      have hnext : (run.state (i + 1)).main = .print true := by
        rw [hstep.2]
        show (moveMain _ _).main = _
        simp only [moveMain, hmain, hexited, if_true]
      rw [hnext, endAccesses]
    | print again =>
      cases again with
      | false =>
        rw [hmain] at heq
        cases heq
      | true =>
        left
        rw [hstep.2]
        show (moveMain _ _).main = _
        simp only [moveMain, hmain]
        exact printed_eq (hprints.second (by simp [hmain]) (by simp [hmain])) _ _ _
  obtain ⟨j, -, hj⟩ := run.reaches .main (fun _ _ _ => trivial) (P := Joining)
    (Q := fun i => (run.state i).main = .finished) hother hmove ⟨hexit, hexited, rfl⟩
  exact ⟨j, hj⟩

include hroom hsecond in
theorem exists_finished (hsignal : ∃ i, ∀ j, i ≤ j → (run.label j).1 = .main → (run.label j).2.shouldExit = true)
    (hstopped : ∀ i w, (run.state i).handOff.generator ≠ .stopped w) : ∃ i, (run.state i).main = .finished := by
  obtain ⟨i, hexit⟩ := reaches_exitAll run hroom hsignal
  obtain ⟨j, hgenerator⟩ := reaches_exitGenerator run hroom hsecond hstopped hexit
  obtain ⟨k, -, hleft⟩ := reaches_not_working run hroom hstopped hexit
  have hgenerator' : (run.state (max j k)).exitGenerator = true :=
    run.persists (P := fun s : Experiment S capacity => s.exitGenerator = true)
      (fun _ _ _ hexit hstep => hstep.1.exitGenerator_stays hexit) hgenerator (Nat.le_max_left j k)
  have hleft' : (run.state (max j k)).generator ≠ .working :=
    run.persists (P := fun s : Experiment S capacity => s.generator ≠ .working)
      (fun _ _ _ hleft hstep => hstep.1.not_working_stays hleft) hleft (Nat.le_max_right j k)
  obtain ⟨l, -, hexit', hexited⟩ := reaches_generator_exited run hroom hgenerator' hleft'
  exact reaches_finished run hroom hsecond hexit' hexited

include hroom hsecond in
/-- **The experiment ends.** Once `should_exit` is set, and when the runtime that `main` takes then tracks at least a second, `main` returns in every fair run; all workers and the generator have exited then. -/
theorem experiment_ends (hsignal : ∃ i, ∀ j, i ≤ j → (run.label j).1 = .main → (run.label j).2.shouldExit = true)
    (hstopped : ∀ i w, (run.state i).handOff.generator ≠ .stopped w) :
    ∃ i, (run.state i).main = .finished ∧ (∀ w, (run.state i).worker w = .exited) ∧
      (run.state i).generator = .exited := by
  obtain ⟨i, hfinished⟩ := exists_finished run hroom hsecond hsignal hstopped
  have hjoined := (tracked run hroom i).sound.inv.joined
  exact ⟨i, hfinished, hjoined.workers (by rw [hfinished]; rfl), hjoined.generator (by rw [hfinished]; rfl)⟩

end Printing

end Fair

/-! ### One fair run -/

/-- Nobody changes anything any more. -/
theorem move_idle (hmain : s.main = .finished) (hworker : ∀ w, s.worker w = .exited) (hgenerator : s.generator = .exited)
    {signal : Signal} (hclock : s.handOff.clock = signal.now) (thread : Thread S.numWorkers) :
    s.move thread signal = s := by
  have htick : { s with handOff := { s.handOff with clock := signal.now } } = s := by rw [← hclock]
  unfold move
  rw [htick]
  cases thread with
  | main => simp only [moveMain, hmain]
  | worker w => simp only [moveWorker, hworker]
  | generator => simp only [moveGenerator, hgenerator]

theorem settledStep_idle (hmain : s.main = .finished) (hworker : ∀ w, s.worker w = .exited)
    (hgenerator : s.generator = .exited) {signal : Signal} (hclock : s.handOff.clock = signal.now)
    (thread : Thread S.numWorkers) : SettledStep s (thread, signal) s := by
  refine ⟨⟨UInt64.le_of_eq hclock, (move_idle hmain hworker hgenerator hclock thread).symm⟩, ?_⟩
  cases thread with
  | main => exact fun hrunning => by simp [hmain] at hrunning
  | generator | worker => trivial

end Experiment

open Experiment

/-- The three threads in turn, each with the same input. -/
def inTurn (signal : Signal) (i : ℕ) : Thread oneWorker.numWorkers × Signal :=
  match i % 3 with
  | 0 => (.main, signal)
  | 1 => (.generator, signal)
  | _ => (.worker theWorker, signal)

theorem inTurn_snd (signal : Signal) (i : ℕ) : (inTurn signal i).2 = signal := by
  unfold inTurn
  split <;> rfl

theorem inTurn_fair (signal : Signal) (t : Thread oneWorker.numWorkers) (i : ℕ) :
    ∃ j, i ≤ j ∧ (inTurn signal j).1 = t := by
  cases t with
  | main => exact ⟨3 * i, by omega, by simp [inTurn]⟩
  | generator => exact ⟨3 * i + 1, by omega, by simp [inTurn]⟩
  | worker w =>
    obtain rfl : w = theWorker := Subsingleton.elim (α := Fin 1) w theWorker
    exact ⟨3 * i + 2, by omega, by simp [inTurn, Nat.add_mod]⟩

/-- The signal comes after three seconds. -/
def threeSeconds : Input := { firstInput with now := 3000000000 }

theorem second_of_times {now startTime : UInt64} (hnow : now = 7 ∨ now = 3000000000)
    (hstart : startTime = 0 ∨ startTime = 7 ∨ startTime = 3000000000) :
    ns2s ≤ now - startTime - oneWorker.options.discarded := by
  rcases hnow with rfl | rfl <;> rcases hstart with rfl | rfl | rfl <;> decide

set_option maxRecDepth 8000 in
theorem experiment_ends_first : ∃ run : FairRun SettledStep Prod.fst Ready
    (Experiment.init oneWorker (Epistle.init : Epistle UInt32 4)), ∃ i, (run.state i).main = .finished ∧
    (∀ w, (run.state i).worker w = .exited) ∧ (run.state i).generator = .exited := by
  obtain ⟨actions, hinput, hrun⟩ :
      ∃ actions, (∀ action ∈ actions, action.2.toInput = firstInput ∨ action.2.toInput = threeSeconds) ∧
        Runs SettledStep (Experiment.init oneWorker Epistle.init) actions (exitWith threeSeconds 4) :=
    runs_exitWith 4 (by decide) (by decide) (by decide)
  have hmain : (exitWith threeSeconds 4).main = .finished := by decide
  have hworker : ∀ w, (exitWith threeSeconds 4).worker w = .exited := by decide
  have hgenerator : (exitWith threeSeconds 4).generator = .exited := by decide
  have hclock : (exitWith threeSeconds 4).handOff.clock = threeSeconds.now := by decide
  let TimedStep := fun (s : Experiment oneWorker 4) action t => SettledStep s action t ∧
    (action.2.toInput = firstInput ∨ action.2.toInput = threeSeconds)
  have htimed : Runs TimedStep (Experiment.init oneWorker Epistle.init) actions (exitWith threeSeconds 4) :=
    hrun.mono_mem fun _ action hmem _ hstep => ⟨hstep, hinput action hmem⟩
  have hidle : ∀ i (s : Experiment oneWorker 4), s = exitWith threeSeconds 4 →
      ∃ t, TimedStep s (inTurn ⟨threeSeconds, true, []⟩ i) t ∧ t = exitWith threeSeconds 4 := by
    rintro i _ rfl
    have hsnd := inTurn_snd ⟨threeSeconds, true, []⟩ i
    rcases hlabel : inTurn ⟨threeSeconds, true, []⟩ i with ⟨thread, signal⟩
    obtain rfl : signal = ⟨threeSeconds, true, []⟩ := by rw [hlabel] at hsnd; exact hsnd
    exact ⟨_, ⟨settledStep_idle hmain hworker hgenerator hclock thread, .inr rfl⟩, rfl⟩
  obtain ⟨rest, hlabel, hstate⟩ := FairRun.exists_of_order Ready (I := fun s => s = exitWith threeSeconds 4)
    (inTurn ⟨threeSeconds, true, []⟩) (inTurn_fair ⟨threeSeconds, true, []⟩) rfl hidle
  obtain ⟨run, hrest⟩ := FairRun.exists_of_runs htimed rest
  have hnow : ∀ i, (run.label i).2.now = 7 ∨ (run.label i).2.now = 3000000000 := fun i =>
    (run.step i).2.imp (congrArg Input.now) (congrArg Input.now)
  have hstart : ∀ i, (run.state i).startTime = 0 ∨ (run.state i).startTime = 7 ∨ (run.state i).startTime = 3000000000 := by
    intro i
    induction i with
    | zero => exact .inl (by rw [run.start]; rfl)
    | succ i ih =>
      rcases (run.step i).1.1.startTime_cases with hsame | htaken
      · rwa [hsame]
      · rw [htaken]
        exact .inr (hnow i)
  refine ⟨run.mono fun _ _ _ hstep => hstep.1, experiment_ends _ (Roomy.init (by decide))
    (fun i _ _ => second_of_times (hnow i) (hstart i)) ⟨actions.length, fun j hle _ => ?_⟩ fun i w hstopped => ?_⟩
  · obtain ⟨d, rfl⟩ := Nat.exists_eq_add_of_le hle
    show (run.label _).2.shouldExit = true
    rw [(hrest d).2, hlabel]
    exact congrArg Signal.shouldExit (inTurn_snd ⟨threeSeconds, true, []⟩ d)
  · refine run.not_before (P := fun s : Experiment oneWorker 4 => s.handOff.generator = .stopped w)
      (fun _ _ _ hstopped hstep => hstep.1.1.stopped_stays hstopped) (i := actions.length) (fun d => ?_) i hstopped
    have hnot : ∀ w, (exitWith threeSeconds 4).handOff.generator ≠ .stopped w := by decide
    rw [(hrest d).1, hstate d]
    exact hnot w

end Workload

end CosUserspace