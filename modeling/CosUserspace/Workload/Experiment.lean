import CosUserspace.Workload.Delivery
import CosUserspace.Workload.Results

/-!
# The end of the experiment

`main` sets `exit_all` once a signal has told it to, prints the results, joins the workers, sets `exit_generator`, joins the generator and prints the results once more. A worker tests `exit_all` at the head of its loop and the generator before each round over the workers; then the generator marks all workers RUNNABLE, over and over, until `exit_generator` is set. Here the hand-off of requests runs inside of that. A `PrintResults` that divides by zero ends the process; that the other threads may still move then only adds to the runs. A call of `HandleRequest` is one access, which the worker makes when it returns.
-/

namespace CosUserspace

namespace Workload

/-- A worker and its loop. -/
inductive WorkerLife
  /-- `while (!exit_all)` -/
  | head
  /-- before the loop or in it -/
  | inside
  | exited
  deriving DecidableEq

/-- The generator and its two loops. -/
inductive GeneratorLife (numWorkers capacity : Nat)
  /-- up to the end of `while (!exit_all)` -/
  | working
  /-- `while(!exit_generator)` -/
  | head
  /-- `epistle->add(tid, EPISTLE_THREAD_RUNNABLE)` for each worker -/
  | mark (w : Fin numWorkers) (pc : Epistle.AddPc capacity)
  | exited
  deriving DecidableEq

/-- `main` after the workers are set up. -/
inductive ExitPc
  /-- sets the workers up, then `while (!should_exit)` and `exit_all = true` -/
  | running
  /-- `PrintResults(runtime)`; the first time the clock is read for `runtime`, `again` is after the joins -/
  | print (again : Bool)
  /-- `t->join()`, and `exit_generator = true` after the last worker -/
  | join (i : Nat)
  /-- `generator.join()` -/
  | joinGenerator
  | finished
  /-- `PrintResults` did not return -/
  | stopped (again : Bool) (stop : ReportStop)
  deriving DecidableEq

/-- `main` has joined the workers. -/
def ExitPc.joinedWorkers : ExitPc → Bool
  | .running | .join _ => false
  | .print again | .stopped again _ => again
  | .joinGenerator | .finished => true

/-- `main` has joined the workers and the generator. -/
def ExitPc.joinedAll : ExitPc → Bool
  | .running | .join _ | .joinGenerator => false
  | .print again | .stopped again _ => again
  | .finished => true

theorem ExitPc.joinedWorkers_of_joinedAll {main : ExitPc} (h : main.joinedAll = true) : main.joinedWorkers = true := by
  cases main with
  | running | join i | joinGenerator => cases h
  | print again | stopped again stop => exact h
  | finished => rfl

/-- The words of the hand-off, the two flags, the times that the results need, and where the threads are in their loops. `spent` counts the accesses of a worker since it has last tested `exit_all`, `late` those after `exit_all` was set. -/
structure Experiment (S : Setup) (capacity : Nat) where
  handOff : HandOff S capacity
  exitAll : Bool
  exitGenerator : Bool
  startTime : UInt64
  runtime : UInt64
  worker : Fin S.numWorkers → WorkerLife
  generator : GeneratorLife S.numWorkers capacity
  main : ExitPc
  spent : Fin S.numWorkers → Nat
  late : Fin S.numWorkers → Nat

/-- An input of the hand-off, what `main` finds in `should_exit`, and what it finds in `requests` while the workers append to it. -/
structure Signal extends Input where
  shouldExit : Bool
  found : List (UInt32 × List Request)

variable {capacity : Nat}

/-- The next access takes the worker back to the head of its loop. -/
def Desk.loops (key : Int32) (e : Epistle UInt32 capacity) (d : Desk capacity) : Bool :=
  match d.pc with
  | .register pc | .retire pc => (e.addMove key epistleThreadIdle pc).1 = .returned
  | .poll pc => e.getMove key pc = .inr epistleThreadIdle
  | .load => d.numRequests = 0
  | _ => false

variable [NeZero capacity] {S : Setup}

namespace Experiment

def init (S : Setup) (epistle : Epistle UInt32 capacity) : Experiment S capacity where
  handOff := .init S epistle
  exitAll := false
  exitGenerator := false
  startTime := 0
  runtime := 0
  worker := fun _ => .inside
  generator := .working
  main := .running
  spent := fun _ => 0
  late := fun _ => 0

def moveWorker (w : Fin S.numWorkers) (now : UInt64) (s : Experiment S capacity) : Experiment S capacity :=
  let late := if s.exitAll then Function.update s.late w (s.late w + 1) else s.late
  match s.worker w with
  | .head =>
    { s with
      worker := Function.update s.worker w (if s.exitAll then .exited else .inside)
      spent := Function.update s.spent w 0
      late }
  | .inside =>
    let looped := (s.handOff.desk w).loops (S.tid w) s.handOff.epistle
    { s with
      handOff := s.handOff.moveWorker w now
      worker := Function.update s.worker w (if looped then .head else .inside)
      spent := Function.update s.spent w (s.spent w + 1)
      late }
  | .exited => s

/-- The head of the loop that marks each worker. -/
def nextMark (S : Setup) (i : Nat) : GeneratorLife S.numWorkers capacity :=
  if h : i < S.numWorkers then .mark ⟨i, h⟩ (.test (Epistle.hash (S.tid ⟨i, h⟩))) else .head

/-- One access of the generator; it reads the clock for `start_time` when it finds `generator_lock` set. -/
def moveGenerator (input : Input) (s : Experiment S capacity) : Experiment S capacity :=
  match s.generator with
  | .working =>
    if s.handOff.generator = .enter 0 ∧ s.exitAll then { s with generator := .head }
    else
      { s with
        handOff := s.handOff.moveGenerator input
        startTime := if s.handOff.generator = .wait ∧ s.handOff.generatorLock then input.now else s.startTime }
  | .head => { s with generator := if s.exitGenerator then .exited else nextMark S 0 }
  | .mark w pc =>
    match s.handOff.epistle.addMove (S.tid w) epistleThreadRunnable pc with
    | (.returned, epistle) => { s with handOff := { s.handOff with epistle }, generator := nextMark S (w + 1) }
    | (pc, epistle) => { s with handOff := { s.handOff with epistle }, generator := .mark w pc }
  | .exited => s

/-- The map `requests`, in the order of its keys. -/
def requests (s : Experiment S capacity) : List (UInt32 × List Request) :=
  ((List.finRange S.numWorkers).map fun w => ((S.tid w).toUInt32, (s.handOff.desk w).recorded)).insertionSort
    fun a b => a.1 ≤ b.1

/-- `PrintResults(runtime)`, and where `main` is after it. -/
def printed (options : Options) (startTime runtime : UInt64) (requests : List (UInt32 × List Request)) (again : Bool) :
    ExitPc :=
  match printResults options startTime.toInt64 requests runtime with
  | .ok _ => if again then .finished else .join 0
  | .error stop => .stopped again stop

/-- `main` has printed the results, and is past its joins exactly if it was. -/
theorem printed_cases (options : Options) (startTime runtime : UInt64) (requests : List (UInt32 × List Request))
    (again : Bool) :
    printed options startTime runtime requests again ≠ .running ∧
      (printed options startTime runtime requests again).joinedWorkers = again ∧
      (printed options startTime runtime requests again).joinedAll = again ∧
      ∀ i, printed options startTime runtime requests again = .join i → i = 0 := by
  unfold printed
  cases printResults options startTime.toInt64 requests runtime with
  | error stop => simp [ExitPc.joinedWorkers, ExitPc.joinedAll]
  | ok lines => cases again <;> simp [ExitPc.joinedWorkers, ExitPc.joinedAll, eq_comm]

def moveMain (signal : Signal) (s : Experiment S capacity) : Experiment S capacity :=
  match s.main with
  | .running =>
    if s.handOff.main = .done then
      if signal.shouldExit then { s with exitAll := true, main := .print false } else s
    else { s with handOff := s.handOff.moveMain }
  | .print false =>
    let runtime := signal.now - s.startTime
    { s with runtime, main := printed S.options s.startTime runtime signal.found false }
  | .join i =>
    if h : i < S.numWorkers then
      if s.worker ⟨i, h⟩ = .exited then { s with main := .join (i + 1) } else s
    else { s with exitGenerator := true, main := .joinGenerator }
  | .joinGenerator => if s.generator = .exited then { s with main := .print true } else s
  | .print true => { s with main := printed S.options s.startTime s.runtime s.requests true }
  | .finished => s
  | .stopped _ _ => s

/-- One access of a thread, at the time `signal.now`. -/
def move (thread : Thread S.numWorkers) (signal : Signal) (s : Experiment S capacity) : Experiment S capacity :=
  let s := { s with handOff := { s.handOff with clock := signal.now } }
  match thread with
  | .main => s.moveMain signal
  | .generator => s.moveGenerator signal.toInput
  | .worker w => s.moveWorker w signal.now

/-- Any thread moves, and the clock does not go back. -/
def Step (s : Experiment S capacity) (action : Thread S.numWorkers × Signal) (s' : Experiment S capacity) : Prop :=
  s.handOff.clock ≤ action.2.now ∧ s' = s.move action.1 action.2

/-- `main` does not set `exit_all` before every worker has marked itself IDLE for the first time. -/
def Settled (s : Experiment S capacity) : Thread S.numWorkers × Signal → Prop
  | (.main, signal) => s.main = .running → s.handOff.main = .done → signal.shouldExit = true →
      ∀ w, ¬ (s.handOff.desk w).pc.Registering
  | (.generator, _) | (.worker _, _) => True

def SettledStep (s : Experiment S capacity) (action : Thread S.numWorkers × Signal) (s' : Experiment S capacity) :
    Prop :=
  Step s action s' ∧ s.Settled action

/-! ### The hand-off inside -/

theorem moveWorker_handOff (w : Fin S.numWorkers) (now : UInt64) (s : Experiment S capacity) :
    (s.moveWorker w now).handOff = s.handOff.moveWorker w now ∨ (s.moveWorker w now).handOff = s.handOff := by
  cases hworker : s.worker w with
  | head | exited =>
    right
    simp only [moveWorker, hworker]
  | inside =>
    left
    simp only [moveWorker, hworker]

theorem moveGenerator_handOff (input : Input) (s : Experiment S capacity) :
    (s.moveGenerator input).handOff = s.handOff.moveGenerator input ∨
      ∃ epistle, (s.moveGenerator input).handOff = { s.handOff with epistle } := by
  unfold moveGenerator
  split
  · split
    · exact .inr ⟨_, rfl⟩
    · exact .inl rfl
  · exact .inr ⟨_, rfl⟩
  · split <;> exact .inr ⟨_, rfl⟩
  · exact .inr ⟨_, rfl⟩

/-- The generator goes on with its round. -/
theorem moveGenerator_working (input : Input) {s : Experiment S capacity} (hworking : s.generator = .working)
    (hgoes : ¬ (s.handOff.generator = .enter 0 ∧ s.exitAll)) :
    ∃ startTime, s.moveGenerator input = { s with handOff := s.handOff.moveGenerator input, startTime } :=
  ⟨_, by simp only [moveGenerator, hworking, if_neg hgoes]; rfl⟩

omit [NeZero capacity] in
/-- `main` makes an access of the hand-off, or it sets flags and changes the runtime and its own place at most. -/
theorem moveMain_cases (signal : Signal) (s : Experiment S capacity) :
    s.main = .running ∧ s.handOff.main ≠ .done ∧ s.moveMain signal = { s with handOff := s.handOff.moveMain } ∨
      ∃ exitAll exitGenerator runtime main, (s.exitAll = true → exitAll = true) ∧
        (s.exitGenerator = true → exitGenerator = true) ∧
        s.moveMain signal = { s with exitAll, exitGenerator, runtime, main } := by
  have hgoto : ∀ runtime main, s.moveMain signal = { s with runtime, main } →
      ∃ exitAll exitGenerator runtime main, (s.exitAll = true → exitAll = true) ∧
        (s.exitGenerator = true → exitGenerator = true) ∧
        s.moveMain signal = { s with exitAll, exitGenerator, runtime, main } :=
    fun runtime main hmove => ⟨s.exitAll, s.exitGenerator, runtime, main, id, id, hmove⟩
  have hstay : s.moveMain signal = s → ∃ exitAll exitGenerator runtime main, (s.exitAll = true → exitAll = true) ∧
      (s.exitGenerator = true → exitGenerator = true) ∧
      s.moveMain signal = { s with exitAll, exitGenerator, runtime, main } := hgoto s.runtime s.main
  cases hmain : s.main with
  | running =>
    by_cases hdone : s.handOff.main = .done
    · right
      by_cases hshould : signal.shouldExit = true
      · exact ⟨true, s.exitGenerator, s.runtime, .print false, fun _ => rfl, id, by simp [moveMain, hmain, hdone, hshould]⟩
      · exact hstay (by simp [moveMain, hmain, hdone, hshould])
    · exact .inl ⟨rfl, hdone, by simp [moveMain, hmain, hdone]⟩
  | print again =>
    right
    cases again with
    | false => exact hgoto _ _ (by simp only [moveMain, hmain]; rfl)
    | true => exact hgoto s.runtime _ (by simp only [moveMain, hmain]; rfl)
  | join i =>
    right
    by_cases hi : i < S.numWorkers
    · by_cases hexited : s.worker ⟨i, hi⟩ = .exited
      · exact hgoto s.runtime (.join (i + 1)) (by simp [moveMain, hmain, hi, hexited])
      · exact hstay (by simp [moveMain, hmain, hi, hexited])
    · exact ⟨s.exitAll, true, s.runtime, .joinGenerator, id, fun _ => rfl, by simp [moveMain, hmain, hi]⟩
  | joinGenerator =>
    right
    by_cases hexited : s.generator = .exited
    · exact hgoto s.runtime (.print true) (by simp [moveMain, hmain, hexited])
    · exact hstay (by simp [moveMain, hmain, hexited])
  | finished | stopped again stop => exact .inr (hstay (by simp only [moveMain, hmain]))

omit [NeZero capacity] in
theorem moveMain_handOff (signal : Signal) (s : Experiment S capacity) :
    (s.moveMain signal).handOff = s.handOff.moveMain ∨ (s.moveMain signal).handOff = s.handOff := by
  rcases moveMain_cases signal s with ⟨-, -, h⟩ | ⟨_, _, _, _, -, -, h⟩
  · exact .inl (congrArg handOff h)
  · exact .inr (by rw [h])

/-- An access is one of the hand-off, or it changes nothing of it but the epistle. -/
theorem move_handOff (thread : Thread S.numWorkers) (signal : Signal) (s : Experiment S capacity) :
    (s.move thread signal).handOff = s.handOff.move thread signal.toInput ∨
      ∃ epistle, (s.move thread signal).handOff = { s.handOff with clock := signal.now, epistle } := by
  have hticked := fun (t : HandOff S capacity) (h : t = { s.handOff with clock := signal.now }) =>
    (⟨t.epistle, h ▸ rfl⟩ : ∃ epistle, t = { s.handOff with clock := signal.now, epistle })
  cases thread with
  | worker w => exact (moveWorker_handOff w signal.now _).imp_right (hticked _)
  | generator => exact moveGenerator_handOff signal.toInput _
  | main => exact (moveMain_handOff signal _).imp_right (hticked _)

end Experiment

end Workload

end CosUserspace
