import CosUserspace.Workload.Scheduled
import CosUserspace.Workload.Termination

/-!
# The experiment ends under ShinjukuLord

That an experiment ends needs every worker that is there and not marked IDLE to move again and again. It can only do so on a CPU, so it is for ShinjukuLord to bring this about: a worker that stays ready is passed over by no round, it gets nearer to the head of the run queue with every round that finds a CPU, and such rounds come again and again as long as time passes. What is left to ask of the world around is `Dispatched`.
-/

namespace CosUserspace

namespace Workload

open Shinjuku (ScheduleInput Hints preemptTimeSlice)
open ShinjukuLord (idleBy found Occupied)
open Experiment

variable {S : Setup} {e : Hints} {cpuNum : Nat} {lordCpu : Int} {lordPid : UInt32}

/-- The lord has the task in its queue or on a CPU. -/
def InLine (tid : UInt32) (l : ShinjukuLord) : Prop := l.status tid = some .queued ∨ l.status tid = some .onCpu

namespace System

variable {s t : System S} {action : Action S}

/-- The move of the workload in a step. -/
def moveOf : Action S → Option (Thread S.numWorkers × Signal)
  | .thread action => some action
  | .lord _ => none

/-- Who makes the step, if it is one of the workload. -/
def mover (action : Action S) : Option (Thread S.numWorkers) := (moveOf action).map Prod.fst

/-- `main` and the generator need no CPU of the lord's. -/
def OnItsOwn : Option (Thread S.numWorkers) → System S → Prop
  | some .main, _ | some .generator, _ => True
  | some (.worker _), _ | none, _ => False

/-! ### One step -/

theorem Step.settled (hstep : Step cpuNum s action t) {move : Thread S.numWorkers × Signal}
    (hmove : moveOf action = some move) : SettledStep s.experiment move t.experiment := by
  cases hstep with
  | thread hstep =>
    obtain rfl := Option.some.inj hmove
    exact hstep
  | msg | schedule => cases hmove

theorem Step.experiment_eq (hstep : Step cpuNum s action t) (hmove : moveOf action = none) :
    t.experiment = s.experiment := by
  cases hstep with
  | thread => cases hmove
  | msg | schedule => rfl

theorem Step.assigned {input : ScheduleInput} (hstep : Step cpuNum s (.lord (.schedule input)) t)
    (h : s.lord.Sound cpuNum) : ∃ l r, ShinjukuLord.assign cpuNum input s.lord = .ok (l, r) := by
  cases hstep with
  | schedule _ hanswer hok =>
    obtain ⟨-, l, r, hassign, -⟩ :=
      (shinjukuDiscipline cpuNum).shot h (ShootAnswer.Success.clean hanswer) hok
    exact ⟨l, r, hassign⟩

/-- A task stays in line until a message blocks or ends it. -/
theorem Step.inLine_stays (hstep : Step cpuNum s action t) (h : s.lord.Sound cpuNum) {tid : UInt32}
    (hstays : ∀ m, action = .lord (.msg m) → m.pid.toUInt32 = tid →
      MsgType.ofCode m.type ≠ some .blocked ∧ MsgType.ofCode m.type ≠ some .dead)
    (hline : InLine tid s.lord) : InLine tid t.lord := by
  cases hstep with
  | thread => exact hline
  | @msg m lord _ hok =>
    rcases h.handle_ok hok with ⟨-, rfl⟩ | ⟨kind, next, hkind, hnext, -, rfl⟩
    · exact hline
    unfold InLine
    rw [Lord.status_move]
    by_cases hpid : m.pid.toUInt32 = tid
    · subst hpid
      obtain ⟨hblocked, hdead⟩ := hstays m rfl rfl
      rw [hkind, ne_eq, Option.some_inj] at hblocked hdead
      rw [Function.update_self]
      left
      rcases hline with hstatus | hstatus
      · rw [hstatus] at hnext
        exact Lifecycle.next_eq_queued (by decide) hnext hblocked hdead
      · rw [hstatus] at hnext
        exact Lifecycle.next_eq_queued (by decide) hnext hblocked hdead
    · rw [Function.update_of_ne (Ne.symm hpid)]
      exact hline
  | schedule _ hanswer hok =>
    obtain ⟨-, l, r, -, hshot⟩ :=
      (shinjukuDiscipline cpuNum).shot h (ShootAnswer.Success.clean hanswer) hok
    rcases hshot.status_cases tid with hsame | ⟨-, honCpu⟩
    · unfold InLine
      rw [hsame]
      exact hline
    · exact .inr honCpu

/-- A task that stays in the queue, and that no round passes over, never moves back; a round that finds a CPU brings it forward. -/
theorem Step.forward (hstep : Step cpuNum s action t) (h : Coherent cpuNum lordCpu s) {tid : UInt32}
    (hmem : tid ∈ s.lord.rq) (hmem' : tid ∈ t.lord.rq) (hactive : idleBy s.experiment.handOff.epistle tid = false) :
    t.lord.rq.idxOf tid ≤ s.lord.rq.idxOf tid ∧
      ∀ input, action = .lord (.schedule input) → 0 < s.lord.found cpuNum input →
        t.lord.rq.idxOf tid < s.lord.rq.idxOf tid := by
  cases action with
  | thread action =>
    cases hstep
    exact ⟨Nat.le_refl _, fun input hround => by cases hround⟩
  | lord op =>
    have hpassed : ∀ input, op = .schedule input → (ShinjukuLord.firstCome cpuNum).active input tid = true := by
      rintro input rfl
      cases hstep with
      | schedule hepistle => simp [ShinjukuLord.firstCome, hepistle, hactive]
    obtain ⟨after, hserving, hlord, hrounds⟩ := hstep.serving
    rw [← hlord] at hmem' ⊢
    have hforward := Serving.forward (shinjukuDiscipline cpuNum) h.serving hserving hmem hmem' hpassed
    simp only [Serving.start] at hforward
    refine ⟨by omega, ?_⟩
    intro input hround hfound
    have hone := hrounds input (Action.lord.inj hround) hfound
    omega

/-- A CPU that no round finds stays occupied. -/
theorem Step.occupied (hstep : Step cpuNum s action t) (h : Coherent cpuNum lordCpu s) {cpu : Nat} {tid : UInt32}
    {last : UInt64} (hnone : ∀ input, action = .lord (.schedule input) → s.lord.found cpuNum input = 0)
    (hoccupied : Occupied lordCpu cpu tid last s.lord) : Occupied lordCpu cpu tid last t.lord := by
  cases hstep with
  | thread => exact hoccupied
  | msg _ hok => exact hoccupied.handle h.serving.sound hok
  | schedule _ hanswer hok => exact hoccupied.schedule h.serving.sound h.serving.zero hanswer (hnone _ rfl) hok

/-! ### Every ready worker moves -/

/-- What the world around the two programs sees to. -/
structure Dispatched (run : FairRun (Step cpuNum) mover OnItsOwn (init S e cpuNum lordCpu lordPid)) : Prop where
  /-- Rounds go on and time passes: one comes at which the slice of a task is over. -/
  rounds : ∀ i tid task, (run.state i).lord.aliveTasks tid = some task → ∃ j, i ≤ j ∧ ∃ input,
    run.label j = .lord (.schedule input) ∧ input.currentTime - task.lastShootTime ≥ preemptTimeSlice
  /-- A worker to which the lord has given a CPU makes its next move, if it stays ready. -/
  moves : ∀ w i, (run.state i).lord.status (S.task w) = some .onCpu →
    ∃ j, i ≤ j ∧ (mover (run.label j) = some (.worker w) ∨ ¬ Ready (.worker w) (run.state j).experiment)
  /-- From some time on each worker is in line, and no message blocks or ends it before it has left its loop. -/
  known : ∀ w, ∃ i, InLine (S.task w) (run.state i).lord ∧ ∀ j, i ≤ j → ∀ m, run.label j = .lord (.msg m) →
    m.pid.toUInt32 = S.task w → (run.state j).experiment.worker w ≠ .exited →
    MsgType.ofCode m.type ≠ some .blocked ∧ MsgType.ofCode m.type ≠ some .dead

section Fair

variable (hroom : Roomy S e) (hcpu : ∃ cpu : Nat, 3 ≤ cpu ∧ cpu < cpuNum ∧ (cpu : Int) ≠ lordCpu)
  {run : FairRun (Step cpuNum) mover OnItsOwn (init S e cpuNum lordCpu lordPid)} (hdispatched : Dispatched run) {i : ℕ}

include hroom in
theorem coherent (i : ℕ) : Coherent cpuNum lordCpu (run.state i) := coherent_of_runs hroom (run.runs i)

include hroom hcpu hdispatched in
/-- Again and again a round finds a CPU. -/
theorem exists_found {tid : UInt32} {task : Task UInt64} (halive : (run.state i).lord.aliveTasks tid = some task) :
    ∃ j, i ≤ j ∧ ∃ input, run.label j = .lord (.schedule input) ∧ 0 < (run.state j).lord.found cpuNum input := by
  by_contra hnever
  have hnone : ∀ j, i ≤ j → ∀ input, run.label j = .lord (.schedule input) →
      (run.state j).lord.found cpuNum input = 0 := fun j hle input hround =>
    Nat.eq_zero_of_not_pos fun hfound => hnever ⟨j, hle, input, hround, hfound⟩
  have hassigned : ∀ j input, run.label j = .lord (.schedule input) →
      ∃ l r, ShinjukuLord.assign cpuNum input (run.state j).lord = .ok (l, r) := fun j input hround =>
    Step.assigned (hround ▸ run.step j) (coherent hroom j).serving.sound
  obtain ⟨cpu, hfirst, hlt, hlord⟩ := hcpu
  -- the next round finds the CPU occupied, and so it stays
  obtain ⟨j, hij, input, hround, -⟩ := hdispatched.rounds i tid task halive
  obtain ⟨l, r, hassign⟩ := hassigned j input hround
  have hlordCpu : (run.state j).lord.lordCpu = lordCpu := (coherent hroom j).lordCpu_eq
  obtain ⟨owner, held, howner, hoccupied⟩ :=
    ShinjukuLord.occupied_of_found_eq_zero hfirst hlt (hlordCpu.symm ▸ hlord) hassign (hnone j hij input hround)
  rw [hlordCpu] at hoccupied
  have hstays : ∀ k, j ≤ k → Occupied lordCpu cpu owner held.lastShootTime (run.state k).lord := by
    intro k hjk
    induction k, hjk using Nat.le_induction with
    | base => exact hoccupied
    | succ k hjk ih => exact (run.step k).occupied (coherent hroom k) (hnone k (Nat.le_trans hij hjk)) ih
  -- until the slice of its task is over
  obtain ⟨k, hjk, input', hround', hslice⟩ := hdispatched.rounds j owner held howner
  obtain ⟨l', r', hassign'⟩ := hassigned k input' hround'
  have hfound := (hstays k hjk).found_pos hfirst hlt hlord hassign' hslice
  rw [hnone k (Nat.le_trans hij hjk) input' hround'] at hfound
  exact Nat.lt_irrefl 0 hfound

include hroom hcpu hdispatched in
/-- A worker that stays ready moves. -/
theorem worker_moves (w : Fin S.numWorkers) (i : ℕ) : ∃ j, i ≤ j ∧
    (mover (run.label j) = some (.worker w) ∨ ¬ Ready (.worker w) (run.state j).experiment) := by
  by_contra hnever
  have hstill : ∀ j, i ≤ j → ¬ (mover (run.label j) = some (.worker w) ∨
      ¬ Ready (.worker w) (run.state j).experiment) := fun j hle hcase => hnever ⟨j, hle, hcase⟩
  have hready : ∀ j, i ≤ j → Ready (.worker w) (run.state j).experiment := fun j hle =>
    Classical.not_not.mp fun hnot => hstill j hle (.inr hnot)
  have hthere : ∀ j, (run.state j).experiment.worker w ≠ .exited := by
    refine run.not_before (P := fun s : System S => s.experiment.worker w = .exited) ?_
      fun d => (hready (i + d) (Nat.le_add_right i d)).1
    intro s action t hexited hstep
    cases hstep with
    | thread hstep => exact hstep.1.exited_stays hexited
    | msg | schedule => exact hexited
  -- it is in line, and not on a CPU, so it is queued
  obtain ⟨k, hk, hstays⟩ := hdispatched.known w
  have hline : ∀ j, k ≤ j → InLine (S.task w) (run.state j).lord := by
    intro j hkj
    induction j, hkj using Nat.le_induction with
    | base => exact hk
    | succ j hkj ih =>
      exact (run.step j).inLine_stays (coherent hroom j).serving.sound
        (fun m hmsg hpid => hstays j hkj m hmsg hpid (hthere j)) ih
  have hqueued : ∀ j, max i k ≤ j → (run.state j).lord.status (S.task w) = some .queued := by
    intro j hle
    refine (hline j (le_of_max_le_right hle)).resolve_right fun honCpu => ?_
    obtain ⟨m, hjm, hcase⟩ := hdispatched.moves w j honCpu
    exact hstill m (Nat.le_trans (le_of_max_le_left hle) hjm) hcase
  have hmem : ∀ j, max i k ≤ j → S.task w ∈ (run.state j).lord.rq := fun j hle =>
    ((coherent hroom j).serving.sound.tracks.mem_iff _).mpr (hqueued j hle)
  have hforward : ∀ j, max i k ≤ j → _ := fun j hle =>
    (run.step j).forward (coherent hroom j) (hmem j hle) (hmem (j + 1) (Nat.le_succ_of_le hle)) (by
      rw [← Bool.not_eq_true, (coherent hroom j).idleBy_iff w]
      exact (hready j (le_of_max_le_left hle)).2)
  have hnearer : ∀ j, max i k ≤ j → ∀ m, j ≤ m →
      (run.state m).lord.rq.idxOf (S.task w) ≤ (run.state j).lord.rq.idxOf (S.task w) := by
    intro j hle m hjm
    induction m, hjm using Nat.le_induction with
    | base => exact Nat.le_refl _
    | succ m hjm ih => exact Nat.le_trans (hforward m (Nat.le_trans hle hjm)).1 ih
  -- but it gets to the head of the queue
  have hdrop : ∀ n, ∃ j, max i k ≤ j ∧
      (run.state j).lord.rq.idxOf (S.task w) + n ≤ (run.state (max i k)).lord.rq.idxOf (S.task w) := by
    intro n
    induction n with
    | zero => exact ⟨max i k, Nat.le_refl _, Nat.le_refl _⟩
    | succ n ih =>
      obtain ⟨j, hle, hj⟩ := ih
      obtain ⟨task, halive, -⟩ := Lord.status_eq_some.mp (hqueued j hle)
      obtain ⟨m, hjm, input, hround, hfound⟩ := exists_found hroom hcpu hdispatched halive
      have hm := Nat.le_trans hle hjm
      have hbefore := hnearer j hle m hjm
      have hlast := (hforward m hm).2 input hround hfound
      exact ⟨m + 1, Nat.le_succ_of_le hm, by omega⟩
  obtain ⟨j, -, hj⟩ := hdrop ((run.state (max i k)).lord.rq.idxOf (S.task w) + 1)
  omega

include hroom hcpu hdispatched in
/-- The moves of the workload alone are a fair run of the experiment. -/
theorem exists_experiment_run : ∃ (inner : FairRun SettledStep Prod.fst Ready (Experiment.init S e)) (time : ℕ → ℕ),
    StrictMono time ∧ ∀ n, inner.state n = (run.state (time n)).experiment ∧
      run.label (time n) = .thread (inner.label n) := by
  have hstart : (run.state 0).experiment = Experiment.init S e := by
    rw [run.start]
    rfl
  have hown : ∀ t : Thread S.numWorkers, (∀ s : System S, OnItsOwn (some t) s) →
      ∀ i, ∃ j, i ≤ j ∧ ∃ move, moveOf (run.label j) = some move ∧ move.1 = t := by
    intro t hown i
    obtain ⟨j, hle, hmove⟩ := run.fair (some t) i
    exact ⟨j, hle, Option.map_eq_some_iff.mp (hmove.resolve_right fun hnot => hnot (hown _))⟩
  have hmain := hown .main fun _ => trivial
  have hoften : ∀ i, ∃ j, i ≤ j ∧ (moveOf (run.label j)).isSome := by
    intro i
    obtain ⟨j, hle, move, hmove, -⟩ := hmain i
    exact ⟨j, hle, by rw [hmove]; rfl⟩
  have hfair : ∀ t i, ∃ j, i ≤ j ∧ ((∃ move, moveOf (run.label j) = some move ∧ move.1 = t) ∨
      ¬ Ready t (run.state j).experiment) := by
    intro t i
    cases t with
    | main =>
      obtain ⟨j, hle, hmove⟩ := hmain i
      exact ⟨j, hle, .inl hmove⟩
    | generator =>
      obtain ⟨j, hle, hmove⟩ := hown .generator (fun _ => trivial) i
      exact ⟨j, hle, .inl hmove⟩
    | worker w =>
      obtain ⟨j, hle, hcase⟩ := worker_moves hroom hcpu hdispatched w i
      exact ⟨j, hle, hcase.imp_left Option.map_eq_some_iff.mp⟩
  obtain ⟨inner, time, hmono, hinner⟩ : ∃ (inner : FairRun SettledStep Prod.fst Ready (Experiment.init S e))
      (time : ℕ → ℕ), StrictMono time ∧ ∀ n, inner.state n = (run.state (time n)).experiment ∧
        moveOf (run.label (time n)) = some (inner.label n) := by
    rw [← hstart]
    exact FairRun.exists_within System.experiment run.state (fun i => moveOf (run.label i))
      (fun i _ hmove => (run.step i).settled hmove) (fun i hnone => (run.step i).experiment_eq hnone) hoften hfair
  refine ⟨inner, time, hmono, fun n => ⟨(hinner n).1, ?_⟩⟩
  have hlabel := (hinner n).2
  cases hwhole : run.label (time n) with
  | thread move =>
    rw [hwhole] at hlabel
    exact congrArg Action.thread (Option.some.inj hlabel)
  | lord op =>
    rw [hwhole] at hlabel
    cases hlabel

include hroom hcpu hdispatched in
/-- **The experiment ends under ShinjukuLord.** Once `should_exit` is set, and when the runtime that `main` takes then tracks at least a second, `main` returns after all workers and the generator have exited, in every run in which the world around does its part. -/
theorem ends_under_shinjuku
    (hsignal : ∃ i, ∀ j, i ≤ j → ∀ signal, run.label j = .thread (.main, signal) → signal.shouldExit = true)
    (hsecond : ∀ i signal, run.label i = .thread (.main, signal) →
      (run.state i).experiment.main = .print false →
      ns2s ≤ signal.now - (run.state i).experiment.startTime - S.options.discarded)
    (hstopped : ∀ i w, (run.state i).experiment.handOff.generator ≠ .stopped w) :
    ∃ i, (run.state i).experiment.main = .finished ∧ (∀ w, (run.state i).experiment.worker w = .exited) ∧
      (run.state i).experiment.generator = .exited := by
  obtain ⟨inner, time, hmono, hinner⟩ := exists_experiment_run hroom hcpu hdispatched
  obtain ⟨i, hsignal⟩ := hsignal
  have hlabel : ∀ n, (inner.label n).1 = .main → run.label (time n) = .thread (.main, (inner.label n).2) :=
    fun n hmain => (hinner n).2.trans (by rw [← hmain])
  obtain ⟨n, hfinished⟩ := exists_finished inner hroom
    (fun n hmain hprint => by
      rw [(hinner n).1] at hprint ⊢
      exact hsecond (time n) _ (hlabel n hmain) hprint)
    ⟨i, fun n hle hmain => hsignal (time n) (Nat.le_trans hle (hmono.id_le n)) _ (hlabel n hmain)⟩
    (fun n w => by
      rw [(hinner n).1]
      exact hstopped (time n) w)
  rw [(hinner n).1] at hfinished
  have hjoined : Joined (run.state (time n)).experiment := (coherent hroom (time n)).sound.inv.joined
  exact ⟨time n, hfinished, hjoined.workers (by rw [hfinished]; rfl), hjoined.generator (by rw [hfinished]; rfl)⟩

end Fair

/-! ### One run -/

/-- The threads move while the lord does nothing. -/
theorem runs_threads {R : System S → Action S → System S → Prop} {l : ShinjukuLord}
    {Q : Experiment S (capacityOf 8) → Thread S.numWorkers × Signal → Experiment S (capacityOf 8) → Prop}
    {x y : Experiment S (capacityOf 8)} {moves : List (Thread S.numWorkers × Signal)} (hrun : Runs Q x moves y)
    (hR : ∀ x move y, Q x move y → R ⟨x, l⟩ (.thread move) ⟨y, l⟩) : Runs R ⟨x, l⟩ (moves.map .thread) ⟨y, l⟩ := by
  induction hrun with
  | nil => exact .nil
  | snoc _ hlast ih =>
    rw [List.map_append]
    exact ih.snoc (hR _ _ _ hlast)

/-- A step with the lord and the inputs of the run below. -/
structure FirstStep (s : System oneWorker) (action : Action oneWorker) (t : System oneWorker) : Prop where
  step : Step 4 s action t
  shot : ∀ tid task, s.lord.aliveTasks tid = some task → task.lastShootTime = 0 ∨ task.lastShootTime = 1000
  timed : ∀ move, moveOf action = some move → move.2.toInput = firstInput ∨ move.2.toInput = threeSeconds
  new : ∀ m, action = .lord (.msg m) → MsgType.ofCode m.type = some .new

namespace FirstStep

variable {s t : System oneWorker}

theorem thread {x y : Experiment oneWorker (capacityOf 8)} {l : ShinjukuLord} {move : Thread oneWorker.numWorkers × Signal}
    (hshot : ∀ tid task, l.aliveTasks tid = some task → task.lastShootTime = 0 ∨ task.lastShootTime = 1000)
    (hstep : SettledStep x move y) (htimed : move.2.toInput = firstInput ∨ move.2.toInput = threeSeconds) :
    FirstStep ⟨x, l⟩ (.thread move) ⟨y, l⟩ where
  step := .thread hstep
  shot := hshot
  timed _ hmove := Option.some.inj hmove ▸ htimed
  new _ hmsg := by cases hmsg

theorem round {input : ScheduleInput}
    (hshot : ∀ tid task, s.lord.aliveTasks tid = some task → task.lastShootTime = 0 ∨ task.lastShootTime = 1000)
    (hstep : Step 4 s (.lord (.schedule input)) t) : FirstStep s (.lord (.schedule input)) t where
  step := hstep
  shot := hshot
  timed _ hmove := by cases hmove
  new _ hmsg := by cases hmsg

end FirstStep

/-- The lord makes a round after each move. -/
def withRounds (signal : Signal) (input : ScheduleInput) (i : ℕ) : Action oneWorker :=
  if i % 2 = 0 then .thread (inTurn signal (i / 2)) else .lord (.schedule input)

theorem withRounds_fair (signal : Signal) (input : ScheduleInput) (t : Option (Thread oneWorker.numWorkers)) (i : ℕ) :
    ∃ j, i ≤ j ∧ mover (withRounds signal input j) = t := by
  cases t with
  | none => exact ⟨2 * i + 1, by omega, by simp [withRounds, mover, moveOf, Nat.add_mod]⟩
  | some t =>
    obtain ⟨j, hle, hj⟩ := inTurn_fair signal t i
    exact ⟨2 * j, by omega, by simp [withRounds, mover, moveOf, hj]⟩

theorem withRounds_round {signal : Signal} {input : ScheduleInput} {i : ℕ}
    (hround : mover (withRounds signal input i) = none) : withRounds signal input i = .lord (.schedule input) := by
  unfold withRounds at hround ⊢
  split at hround
  · cases hround
  · rename_i hodd
    rw [if_neg hodd]

theorem withRounds_signal {signal : Signal} {input : ScheduleInput} {i : ℕ} {move : Thread oneWorker.numWorkers × Signal}
    (hmove : withRounds signal input i = .thread move) : move.2 = signal := by
  unfold withRounds at hmove
  split at hmove
  · cases hmove
    exact inTurn_snd signal (i / 2)
  · cases hmove

/-- A round with nobody in the queue changes nothing. -/
theorem schedule_of_rq_nil {input : ScheduleInput} {l : ShinjukuLord} {pools : ShinjukuLord.Pools} (hrq : l.rq = [])
    (hclassify : ShinjukuLord.classify input l (List.range' 3 (cpuNum - 3)) .empty = .ok pools) :
    (shinjuku cpuNum).schedule input l = .ok l := by
  have hsame : { l with rq := [] } = l := by rw [← hrq]
  have hassign : (shinjuku cpuNum).assign input l = .ok (l, .empty) := by
    show ShinjukuLord.assign cpuNum input l = .ok (l, .empty)
    simp only [ShinjukuLord.assign, hclassify, hrq, ShinjukuLord.assignLoop, ShinjukuLord.moveBack, hsame]
  rw [Scheduler.schedule, hassign]
  exact Lord.shoot_of_empty rfl

/-- The lord when the worker has been announced and shot. -/
structure HasShot (l : ShinjukuLord) : Prop where
  rq : l.rq = []
  lordCpu : l.lordCpu = 0
  record : l.cpuStates.read 3 = some ⟨.cos, 5⟩
  task : l.aliveTasks 5 = some ⟨5, .onCpu, 3, 1000⟩
  others : ∀ tid, tid ≠ 5 → l.aliveTasks tid = none

theorem HasShot.lastShootTime {l : ShinjukuLord} (h : HasShot l) {tid : UInt32} {task : Task UInt64}
    (halive : l.aliveTasks tid = some task) : task.lastShootTime = 1000 := by
  by_cases htid : tid = 5
  · rw [htid, h.task] at halive
    exact (congrArg Task.lastShootTime (Option.some.inj halive)).symm
  · rw [h.others tid htid] at halive
    cases halive

/-- A round after the slice changes nothing. -/
theorem HasShot.schedule {l : ShinjukuLord} (h : HasShot l) (epistle : Hints) :
    (shinjuku 4).schedule ⟨1000000, epistle, ⟨0, ∅⟩⟩ l = .ok l := by
  have hslice : (1000000 : UInt64) - 1000 ≥ preemptTimeSlice := by decide
  have hpreempt : ShinjukuLord.preemptable ⟨1000000, epistle, ⟨0, ∅⟩⟩ ⟨5, .onCpu, 3, 1000⟩ = .ok true := if_pos hslice
  have hclassify : ShinjukuLord.classify ⟨1000000, epistle, ⟨0, ∅⟩⟩ l (List.range' 3 (4 - 3)) .empty =
      .ok ⟨[], [], [3]⟩ := by
    simp [ShinjukuLord.classify, ShinjukuLord.Pools.empty, h.lordCpu, h.record, h.task, hpreempt]
  exact schedule_of_rq_nil h.rq hclassify

theorem exists_shot : ∃ l : ShinjukuLord, HasShot l ∧
    Runs FirstStep (init oneWorker Epistle.init 4 0 1)
      [.lord (.msg ⟨5, 3, 0⟩), .lord (.schedule ⟨1000, .init, ⟨0, ∅⟩⟩)] ⟨.init oneWorker Epistle.init, l⟩ := by
  refine ⟨_, ⟨rfl, rfl, rfl, rfl, fun tid htid => ?_⟩,
    .cons ⟨.msg (by decide) rfl, fun tid task halive => ?_, fun move hmove => ?_, fun m hmsg => ?_⟩
      (.cons (.round (fun tid task halive => ?_) (.schedule rfl ⟨rfl, rfl⟩ rfl)) .nil)⟩
  · exact (Function.update_of_ne htid ..).trans (Function.update_of_ne htid ..)
  · cases halive
  · cases hmove
  · cases hmsg
    rfl
  · by_cases htid : tid = 5
    · subst htid
      exact .inl (congrArg Task.lastShootTime (Option.some.inj halive)).symm
    · cases (Function.update_of_ne htid ..).symm.trans halive

/-- The experiment when everybody has been joined. -/
structure HasEnded (x : Experiment oneWorker (capacityOf 8)) : Prop where
  main : x.main = .finished
  worker : ∀ w, x.worker w = .exited
  generator : x.generator = .exited
  clock : x.handOff.clock = threeSeconds.now
  goes : ∀ w, x.handOff.generator ≠ .stopped w

set_option maxRecDepth 8000 in
theorem exists_ended : ∃ x moves, HasEnded x ∧
    Runs (fun x move y => SettledStep x move y ∧ (move.2.toInput = firstInput ∨ move.2.toInput = threeSeconds))
      (Experiment.init oneWorker Epistle.init) moves x := by
  obtain ⟨moves, hinput, hmoves⟩ : ∃ moves, (∀ move ∈ moves, move.2.toInput = firstInput ∨ move.2.toInput = threeSeconds) ∧
      Runs SettledStep (Experiment.init oneWorker Epistle.init) moves (exitWith threeSeconds (capacityOf 8)) :=
    runs_exitWith (capacityOf 8) (by decide) (by decide) (by decide)
  exact ⟨_, moves, ⟨by decide, by decide, by decide, by decide, by decide⟩,
    hmoves.mono_mem fun _ move hmem _ hstep => ⟨hstep, hinput move hmem⟩⟩

/-- Nothing changes any more. -/
theorem firstStep_last {x : Experiment oneWorker (capacityOf 8)} {l : ShinjukuLord} (hx : HasEnded x) (hl : HasShot l)
    (i : ℕ) : FirstStep ⟨x, l⟩ (withRounds ⟨threeSeconds, true, []⟩ ⟨1000000, x.handOff.epistle, ⟨0, ∅⟩⟩ i) ⟨x, l⟩ := by
  have hshot : ∀ tid task, l.aliveTasks tid = some task → task.lastShootTime = 0 ∨ task.lastShootTime = 1000 :=
    fun _ _ halive => .inr (hl.lastShootTime halive)
  unfold withRounds
  split
  · have hsnd := inTurn_snd ⟨threeSeconds, true, []⟩ (i / 2)
    rcases hlabel : inTurn ⟨threeSeconds, true, []⟩ (i / 2) with ⟨thread, signal⟩
    obtain rfl : signal = ⟨threeSeconds, true, []⟩ := by rw [hlabel] at hsnd; exact hsnd
    exact .thread hshot (settledStep_idle hx.main hx.worker hx.generator hx.clock thread) (.inr rfl)
  · exact .round hshot (.schedule rfl ⟨rfl, rfl⟩ (hl.schedule _))

/-- The worker gets CPU `3`, and the experiment runs to its end. -/
theorem ends_under_shinjuku_first : ∃ run : FairRun (Step 4) mover OnItsOwn (init oneWorker Epistle.init 4 0 1), ∃ i,
    (run.state i).experiment.main = .finished ∧ (∀ w, (run.state i).experiment.worker w = .exited) ∧
    (run.state i).experiment.generator = .exited := by
  obtain ⟨l, hl, hshot⟩ := exists_shot
  obtain ⟨x, moves, hx, hmoves⟩ := exists_ended
  have hlast : ∀ tid task, l.aliveTasks tid = some task → task.lastShootTime = 0 ∨ task.lastShootTime = 1000 :=
    fun _ _ halive => .inr (hl.lastShootTime halive)
  obtain ⟨actions, hruns⟩ : ∃ actions, Runs FirstStep (init oneWorker Epistle.init 4 0 1) actions ⟨x, l⟩ :=
    ⟨_, hshot.append (runs_threads hmoves fun _ _ _ hstep => .thread hlast hstep.1 hstep.2)⟩
  obtain ⟨rest, hlabel, hstate⟩ := FairRun.exists_of_order OnItsOwn (I := fun s => s = ⟨x, l⟩)
    (withRounds ⟨threeSeconds, true, []⟩ ⟨1000000, x.handOff.epistle, ⟨0, ∅⟩⟩) (withRounds_fair _ _) rfl
    (by rintro i _ rfl; exact ⟨_, firstStep_last hx hl i, rfl⟩)
  obtain ⟨run, hrest⟩ := FairRun.exists_of_runs hruns rest
  have hlate : ∀ i thread, ∃ j, i ≤ j ∧ ∃ k, mover (run.label j) = thread ∧
      run.label j = withRounds ⟨threeSeconds, true, []⟩ ⟨1000000, x.handOff.epistle, ⟨0, ∅⟩⟩ k := by
    intro i thread
    obtain ⟨k, hk, hmover⟩ := withRounds_fair ⟨threeSeconds, true, []⟩ ⟨1000000, x.handOff.epistle, ⟨0, ∅⟩⟩ thread i
    have hsame := (hrest k).2.trans (congrFun hlabel k)
    exact ⟨actions.length + k, Nat.le_add_left_of_le hk, k, (congrArg mover hsame).trans hmover, hsame⟩
  have hdispatched : Dispatched (run.mono fun _ _ _ hstep => hstep.step) := by
    refine ⟨fun i tid task halive => ?_, fun w i _ => ?_, fun w => ⟨actions.length, ?_, fun i _ m hmsg _ _ => ?_⟩⟩
    · obtain ⟨j, hle, k, hmover, hsame⟩ := hlate i none
      rw [hsame] at hmover
      refine ⟨j, hle, _, hsame.trans (withRounds_round hmover), ?_⟩
      show (1000000 : UInt64) - task.lastShootTime ≥ preemptTimeSlice
      rcases (run.step i).shot tid task halive with hlast | hlast <;> rw [hlast] <;> decide
    · obtain ⟨j, hle, -, hmover, -⟩ := hlate i (some (.worker w))
      exact ⟨j, hle, .inl hmover⟩
    · have htask : oneWorker.task w = 5 := by revert w; decide
      have hlast : (run.state actions.length).lord = l := congrArg System.lord ((hrest 0).1.trans (hstate 0))
      right
      show (run.state actions.length).lord.status (oneWorker.task w) = some .onCpu
      rw [hlast, htask]
      exact Lord.status_of_aliveTasks hl.task
    · rw [(run.step i).new m hmsg]
      exact ⟨by decide, by decide⟩
  have hnow : ∀ i move, moveOf (run.label i) = some move → move.2.now = 7 ∨ move.2.now = 3000000000 :=
    fun i move hmove => ((run.step i).timed move hmove).imp (congrArg Input.now) (congrArg Input.now)
  have hstart : ∀ i, (run.state i).experiment.startTime = 0 ∨ (run.state i).experiment.startTime = 7 ∨
      (run.state i).experiment.startTime = 3000000000 := by
    intro i
    induction i with
    | zero => exact .inl (by rw [run.start]; rfl)
    | succ i ih =>
      cases hmove : moveOf (run.label i) with
      | none => rwa [(run.step i).step.experiment_eq hmove]
      | some move =>
        rcases ((run.step i).step.settled hmove).1.startTime_cases with hsame | htaken
        · rwa [hsame]
        · rw [htaken]
          exact .inr (hnow i move hmove)
  refine ⟨run.mono fun _ _ _ hstep => hstep.step, ends_under_shinjuku (Roomy.init (by decide)) ⟨3, by decide⟩ hdispatched
    ⟨actions.length, fun j hle signal hmove => ?_⟩
    (fun i _ hmove _ => second_of_times (hnow i _ (congrArg moveOf hmove)) (hstart i)) fun i w hstopped => ?_⟩
  · obtain ⟨d, rfl⟩ := Nat.exists_eq_add_of_le hle
    have hsame := ((hrest d).2.trans (congrFun hlabel d)).symm.trans hmove
    exact congrArg Signal.shouldExit (withRounds_signal hsame)
  · refine run.not_before (P := fun s : System oneWorker => s.experiment.handOff.generator = .stopped w) ?_
      (i := actions.length) (fun d => ?_) i hstopped
    · intro s action t hstopped hstep
      cases hmove : moveOf action with
      | none => rwa [hstep.step.experiment_eq hmove]
      | some move => exact (hstep.step.settled hmove).1.stopped_stays hstopped
    · rw [(hrest d).1, hstate d]
      exact hx.goes w

end System

end Workload

end CosUserspace
