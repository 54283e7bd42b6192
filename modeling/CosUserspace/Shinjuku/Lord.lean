import CosUserspace.Epistle.Table
import CosUserspace.Lord.Frame
import CosUserspace.Lord.Schedule
import Mathlib.Data.List.Perm.Basic

/-!
# ShinjukuLord

`schedule` sorts the CPUs from `3` on into idle ones, CPUs taken by cfs, and CPUs whose task has used up its time slice or is idle by the epistle. It then walks over the run queue: a task that is idle by the epistle is set aside for the end of the queue, any other one takes the next CPU, in this order of the three kinds. A shoot onto a CPU of the third kind displaces the task there, whose own record stays OnCpu until its message arrives.
-/

namespace CosUserspace

namespace Shinjuku

/-- `preempt_time_slice`, in nanoseconds. -/
def preemptTimeSlice : UInt64 := 1000 * 400

/-- `EPISTLE_THREAD_IDLE` -/
def epistleThreadIdle : UInt32 := 1

inductive ThreadType
  | idle
  | cos
  | cfs
  deriving DecidableEq, Repr

structure CpuState where
  type : ThreadType
  pid : UInt32
  deriving DecidableEq, Repr

instance : CpuRecord CpuState where
  idle := ⟨.idle, 0⟩
  takenByCfs := fun state => { state with type := .cfs }
  isCos := fun state => state.type = .cos

/-- The table of an `Epistle<u_int32_t>`, whose entries have 8 bytes. -/
abbrev Hints := Epistle UInt32 (capacityOf 8)

/-- What one call of `schedule` reads from outside: the clock, the epistle and the kernel's answer. -/
structure ScheduleInput where
  currentTime : UInt64
  epistle : Hints
  answer : ShootAnswer

end Shinjuku

open Shinjuku

abbrev ShinjukuLord := Lord UInt64 Shinjuku.CpuState

namespace ShinjukuLord

/-- The task may be displaced: `current_time - last_shoot_time >= preempt_time_slice || get(pid) == EPISTLE_THREAD_IDLE`. -/
def preemptable (input : ScheduleInput) (task : Task UInt64) : Except Stop Bool :=
  if input.currentTime - task.lastShootTime ≥ preemptTimeSlice then .ok true
  else (input.epistle.get task.pid).map (· == epistleThreadIdle)

/-- `idle_cpu`, `cfs_cpu`, `cos_cpu` -/
structure Pools where
  idleCpu : List Nat
  cfsCpu : List Nat
  cosCpu : List Nat

namespace Pools

def empty : Pools := ⟨[], [], []⟩

/-- All CPUs of the pools, in the order in which they are taken. -/
def cpus (pools : Pools) : List Nat := pools.idleCpu ++ (pools.cfsCpu ++ pools.cosCpu)

/-- The CPU for the next shot. -/
def take : Pools → Option (Nat × Pools)
  | ⟨cpu :: idleCpu, cfsCpu, cosCpu⟩ => some (cpu, ⟨idleCpu, cfsCpu, cosCpu⟩)
  | ⟨[], cpu :: cfsCpu, cosCpu⟩ => some (cpu, ⟨[], cfsCpu, cosCpu⟩)
  | ⟨[], [], cpu :: cosCpu⟩ => some (cpu, ⟨[], [], cosCpu⟩)
  | ⟨[], [], []⟩ => none

theorem take_eq_some {pools rest : Pools} {cpu : Nat} (htake : pools.take = some (cpu, rest)) :
    pools.cpus = cpu :: rest.cpus := by
  obtain ⟨idleCpu, cfsCpu, cosCpu⟩ := pools
  rcases idleCpu with _ | ⟨c, idleCpu⟩
  · rcases cfsCpu with _ | ⟨c, cfsCpu⟩
    · rcases cosCpu with _ | ⟨c, cosCpu⟩
      · cases htake
      · obtain ⟨rfl, rfl⟩ := Prod.mk.inj (Option.some.inj htake)
        rfl
    · obtain ⟨rfl, rfl⟩ := Prod.mk.inj (Option.some.inj htake)
      rfl
  · obtain ⟨rfl, rfl⟩ := Prod.mk.inj (Option.some.inj htake)
    rfl

end Pools

/-- The loop `for (int cpu = 3; cpu < cpu_num; cpu++)`, on the CPUs still ahead. -/
def classify (input : ScheduleInput) (l : ShinjukuLord) : List Nat → Pools → Except Stop Pools
  | [], pools => .ok pools
  | cpu :: cpus, pools =>
    if (cpu : Int) = l.lordCpu then classify input l cpus pools
    else
      match l.cpuStates.read cpu with
      | none => .error .outOfRange
      | some ⟨.idle, _⟩ => classify input l cpus { pools with idleCpu := pools.idleCpu ++ [cpu] }
      | some ⟨.cfs, _⟩ => classify input l cpus { pools with cfsCpu := pools.cfsCpu ++ [cpu] }
      | some ⟨.cos, pid⟩ =>
        match l.aliveTasks pid with
        | none => .error .nullOwner
        | some task =>
          if task.state ≠ .onCpu then .error .assertOnCpu
          else
            match preemptable input task with
            | .error stop => .error stop
            | .ok true => classify input l cpus { pools with cosCpu := pools.cosCpu ++ [cpu] }
            | .ok false => classify input l cpus pools

/-- The loop `while (true)`. The run queue is the list it recurses on; `onqueueIdle` are the tasks set aside. -/
def assignLoop (input : ScheduleInput) : RunQueue → Pools → RunQueue → ShinjukuLord → Round Shinjuku.CpuState →
    Except Stop (RunQueue × ShinjukuLord × Round Shinjuku.CpuState)
  | [], _, onqueueIdle, l, r => .ok (onqueueIdle, { l with rq := [] }, r)
  | head :: rest, pools, onqueueIdle, l, r =>
    let tid : Int32 := head.toInt32
    if tid = 0 then .ok (onqueueIdle, { l with rq := head :: rest }, r)
    else
      match input.epistle.get tid with
      | .error stop => .error stop
      | .ok hint =>
        if hint = epistleThreadIdle then
          assignLoop input rest pools (onqueueIdle.enqueue tid.toUInt32) l r
        else
          match pools.take with
          | none => .ok (onqueueIdle, { l with rq := head :: rest }, r)
          | some (cpu, pools) =>
            match l.aliveTasks tid.toUInt32 with
            | none => .error .pickedBeforeNew
            | some next =>
              match l.cpuStates.read cpu with
              | none => .error .outOfRange
              | some old =>
                match (l.setTask tid.toUInt32 (next.shootOn input.currentTime cpu)).modifyCpu cpu
                    fun _ => ⟨.cos, next.pid.toUInt32⟩ with
                | .error stop => .error stop
                | .ok l => assignLoop input rest pools onqueueIdle l (r.push cpu next.pid.toUInt32 old)

/-- `while (onqueue_idle.peek() != 0)`: the tasks set aside go to the end of the run queue. -/
def moveBack : RunQueue → RunQueue → RunQueue
  | [], rq => rq
  | tid :: onqueueIdle, rq => if tid = 0 then rq else moveBack onqueueIdle (rq.enqueue tid)

/-- `schedule` up to `if (assigned.empty())`. -/
def assign (cpuNum : Nat) (input : ScheduleInput) (l : ShinjukuLord) :
    Except Stop (ShinjukuLord × Round Shinjuku.CpuState) :=
  match classify input l (List.range' 3 (cpuNum - 3)) .empty with
  | .error stop => .error stop
  | .ok pools =>
    match assignLoop input l.rq pools [] l .empty with
    | .error stop => .error stop
    | .ok (onqueueIdle, l, r) => .ok ({ l with rq := moveBack onqueueIdle l.rq }, r)

end ShinjukuLord

/-- `ShinjukuLord::schedule` -/
def shinjuku (cpuNum : Nat) : Scheduler UInt64 Shinjuku.CpuState ScheduleInput where
  cpuNum := cpuNum
  assign := ShinjukuLord.assign cpuNum
  answer := (·.answer)

end CosUserspace
