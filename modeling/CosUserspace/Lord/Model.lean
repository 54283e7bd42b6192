import CosUserspace.ShootArea

/-!
# The lords

`FifoLord` and `ShinjukuLord` keep the same three tables, a run queue, the alive tasks and the CPU states, and their seven message handlers, the commit of a round and its rollback are the same code. They differ in what a task record and a CPU record hold and in how a round is assigned. `Lord θ κ` is their common part: `θ` is the type of `last_shoot_time` and `κ` the type of a CPU record.
-/

namespace CosUserspace

/-! ### The run queue -/

/-- `FifoRq`, `ShinjukuRq` -/
abbrev RunQueue := List UInt32

namespace RunQueue

def enqueue (tid : UInt32) (rq : RunQueue) : RunQueue := rq ++ [tid]

def dequeue (rq : RunQueue) : RunQueue := rq.tail

/-- The head, or `0` when the queue is empty. -/
def peek (rq : RunQueue) : UInt32 := rq.headD 0

/-- The queue without the first occurrence of `tid`; without any, the code exits. -/
def removeFromRq (tid : UInt32) : RunQueue → Option RunQueue
  | [] => none
  | head :: rest => if head = tid then some rest else (removeFromRq tid rest).map (head :: ·)

theorem removeFromRq_eq {tid : UInt32} {rq : RunQueue} (hmem : tid ∈ rq) :
    rq.removeFromRq tid = some (rq.erase tid) := by
  induction rq with
  | nil => cases hmem
  | cons head rest ih =>
    by_cases hhead : head = tid
    · simp [removeFromRq, hhead]
    · have hrest : tid ∈ rest := (List.mem_cons.mp hmem).resolve_left fun heq => hhead heq.symm
      simp [removeFromRq, hhead, ih hrest]

/-- `peek` answers `0` for a queue that is empty or whose head is `0`. -/
theorem peek_cases (rq : RunQueue) : rq.peek = 0 ∨ rq = rq.peek :: rq.dequeue := by
  cases rq with
  | nil => exact .inl rfl
  | cons head rest => exact .inr rfl

end RunQueue

/-! ### Tasks and CPU records -/

/-- `FifoRunState`, `ShinjukuRunState` -/
inductive RunState
  | queued
  | onCpu
  | blocked
  deriving DecidableEq, Repr

/-- `FifoTask`, `ShinjukuTask`; only the latter has a `last_shoot_time`. -/
structure Task (θ : Type) where
  pid : Int32
  state : RunState
  cpuId : Int
  lastShootTime : θ

def Task.new {θ : Type} [Inhabited θ] (pid : Int32) : Task θ := ⟨pid, .blocked, -1, default⟩

/-- The record of a task that is shot onto `cpu`. -/
def Task.shootOn {θ : Type} (now : θ) (cpu : Nat) (task : Task θ) : Task θ :=
  { task with state := .onCpu, cpuId := cpu, lastShootTime := now }

/-- What the handlers read and write of a CPU record. -/
class CpuRecord (κ : Type) where
  /-- the record of a CPU that its task has left, and of every CPU at the start -/
  idle : κ
  /-- the record of a CPU that cfs has taken -/
  takenByCfs : κ → κ
  isCos : κ → Bool

/-- The members of `Lord` and of the class derived from it. -/
structure Lord (θ κ : Type) where
  lordCpu : Int
  lordPid : UInt32
  seq : UInt32
  sa : CosShootArea
  rq : RunQueue
  aliveTasks : UInt32 → Option (Task θ)
  cpuStates : Buffer κ

namespace Lord

variable {θ κ : Type}

/-- The constructor: the CPU table is reserved, and each of its `cpuNum` cells assigned. -/
def new [CpuRecord κ] (cpuNum : Nat) (lordCpu : Int) (lordPid : UInt32) : Lord θ κ where
  lordCpu := lordCpu
  lordPid := lordPid
  seq := 0
  sa := .init
  rq := []
  aliveTasks := fun _ => none
  cpuStates := (Buffer.reserve cpuNum CpuRecord.idle).fill CpuRecord.idle cpuNum

def status (l : Lord θ κ) (tid : UInt32) : Option RunState := (l.aliveTasks tid).map (·.state)

def enqueue (l : Lord θ κ) (tid : UInt32) : Lord θ κ := { l with rq := l.rq.enqueue tid }

def setTask (l : Lord θ κ) (tid : UInt32) (task : Task θ) : Lord θ κ :=
  { l with aliveTasks := Function.update l.aliveTasks tid (some task) }

def eraseTask (l : Lord θ κ) (tid : UInt32) : Lord θ κ :=
  { l with aliveTasks := Function.update l.aliveTasks tid none }

def removeFromRq (l : Lord θ κ) (tid : UInt32) : Except Stop (Lord θ κ) :=
  match l.rq.removeFromRq tid with
  | none => .error .removeUnqueued
  | some rq => .ok { l with rq }

/-- A write to `cpu_states_[cpu]`. -/
def modifyCpu (l : Lord θ κ) (cpu : Int) (f : κ → κ) : Except Stop (Lord θ κ) :=
  match l.cpuStates.modify cpu f with
  | none => .error .outOfRange
  | some cpuStates => .ok { l with cpuStates }

/-! ### Handlers

Each handler stores the 16-bit `msg.pid` in a `u_int32_t tid`. The entries of `alive_tasks_` are never null: a default entry is dereferenced where it is made. -/

section Handlers

variable [Inhabited θ] [CpuRecord κ]

def consumeMsgTaskRunnable (msg : CosMsg) (l : Lord θ κ) : Except Stop (Lord θ κ) :=
  let tid := msg.pid.toUInt32
  match l.aliveTasks tid with
  | none => .ok l
  | some task =>
    if task.state = .queued then .ok l
    else .ok ((l.enqueue tid).setTask tid { task with state := .queued })

/-- The part that `blocked` and `dead` share: the task leaves the run queue or its CPU. -/
def leave (tid : UInt32) (task : Task θ) (l : Lord θ κ) : Except Stop (Lord θ κ) :=
  match task.state with
  | .queued => l.removeFromRq tid
  | .onCpu => l.modifyCpu task.cpuId fun _ => CpuRecord.idle
  | .blocked => .ok l

def consumeMsgTaskBlocked (msg : CosMsg) (l : Lord θ κ) : Except Stop (Lord θ κ) :=
  let tid := msg.pid.toUInt32
  match l.aliveTasks tid with
  | none => .ok l
  | some task =>
    match l.leave tid task with
    | .error stop => .error stop
    | .ok l => .ok (l.setTask tid { task with state := .blocked })

def consumeMsgTaskNew (msg : CosMsg) (l : Lord θ κ) : Except Stop (Lord θ κ) :=
  let tid := msg.pid.toUInt32
  match l.aliveTasks tid with
  | some _ => .error .sameNewThread
  | none => .ok ((l.enqueue tid).setTask tid { Task.new tid.toInt32 with state := .queued })

def consumeMsgTaskNewBlocked (msg : CosMsg) (l : Lord θ κ) : Except Stop (Lord θ κ) :=
  let tid := msg.pid.toUInt32
  match l.aliveTasks tid with
  | some _ => .error .sameNewThread
  | none => .ok (l.setTask tid (Task.new tid.toInt32))

def consumeMsgTaskDead (msg : CosMsg) (l : Lord θ κ) : Except Stop (Lord θ κ) :=
  let tid := msg.pid.toUInt32
  match l.aliveTasks tid with
  | none => .error .deadBeforeNew
  | some task =>
    match l.leave tid task with
    | .error stop => .error stop
    | .ok l => .ok (l.eraseTask tid)

/-- by cos -/
def consumeMsgTaskPreemptCos (msg : CosMsg) (l : Lord θ κ) : Except Stop (Lord θ κ) :=
  let tid := msg.pid.toUInt32
  match l.aliveTasks tid with
  | none => .error .preemptBeforeNew
  | some task =>
    match task.state with
    | .blocked => .error .assertNotBlocked
    | .queued => .ok l
    | .onCpu =>
      let l := (l.enqueue tid).setTask tid { task with state := .queued }
      match l.cpuStates.read task.cpuId with
      | none => .error .outOfRange
      | some cpu => if CpuRecord.isCos cpu then .ok l else .error .assertCpuCos

/-- by cfs -/
def consumeMsgTaskPreempt (msg : CosMsg) (l : Lord θ κ) : Except Stop (Lord θ κ) :=
  let tid := msg.pid.toUInt32
  match l.aliveTasks tid with
  | none => .error .preemptBeforeNew
  | some task =>
    match task.state with
    | .blocked => .error .assertNotBlocked
    | .queued => .ok l
    | .onCpu =>
      ((l.enqueue tid).setTask tid { task with state := .queued }).modifyCpu task.cpuId
        CpuRecord.takenByCfs

/-- The `switch (msg.type)` of `consume_message`; an unknown type is only logged. -/
def handle (msg : CosMsg) (l : Lord θ κ) : Except Stop (Lord θ κ) :=
  match MsgType.ofCode msg.type with
  | some .runnable => l.consumeMsgTaskRunnable msg
  | some .blocked => l.consumeMsgTaskBlocked msg
  | some .new => l.consumeMsgTaskNew msg
  | some .dead => l.consumeMsgTaskDead msg
  | some .preempt => l.consumeMsgTaskPreempt msg
  | some .newBlocked => l.consumeMsgTaskNewBlocked msg
  | some .cosPreempt => l.consumeMsgTaskPreemptCos msg
  | none => .ok l

/-- `Lord::consume_message`, on the messages it finds until the queue is empty. -/
def consumeMessage : List CosMsg → Lord θ κ → Except Stop (Lord θ κ)
  | [], l => .ok l
  | msg :: msgs, l =>
    if msg.pid.toUInt32 = l.lordPid then consumeMessage msgs l
    else
      match ({ l with seq := msg.seq } : Lord θ κ).handle msg with
      | .error stop => .error stop
      | .ok l => consumeMessage msgs l

end Handlers

end Lord

/-! ### Rounds -/

/-- What `schedule` collects while it assigns CPUs. -/
structure Round (κ : Type) where
  assigned : List (Nat × CosShootArg)
  assignedMask : CpuSet
  oldCpuStates : List (Nat × κ)

namespace Round

variable {κ : Type}

def empty : Round κ := ⟨[], ∅, []⟩

/-- `pid` is assigned to `cpu`, and `old` saved for the rollback. -/
def push (r : Round κ) (cpu : Nat) (pid : UInt32) (old : κ) : Round κ where
  assigned := r.assigned ++ [(cpu, ⟨pid, 0⟩)]
  assignedMask := r.assignedMask.add cpu
  oldCpuStates := r.oldCpuStates ++ [(cpu, old)]

end Round

namespace Lord

variable {θ κ : Type}

/-- One task is put back: it is enqueued, and its record looked up and set to Queued. -/
def revertTask (pid : UInt32) (l : Lord θ κ) : Except Stop (Lord θ κ) :=
  match (l.enqueue pid).aliveTasks pid with
  | none => .error .nullRollback
  | some task => .ok ((l.enqueue pid).setTask pid { task with state := .queued })

/-- `for (auto arg : assigned)` -/
def revertTasks : List UInt32 → Lord θ κ → Except Stop (Lord θ κ)
  | [], l => .ok l
  | pid :: pids, l =>
    match l.revertTask pid with
    | .error stop => .error stop
    | .ok l => revertTasks pids l

/-- `for (auto cs : old_cpu_states)` -/
def revertCpus : List (Nat × κ) → Lord θ κ → Except Stop (Lord θ κ)
  | [], l => .ok l
  | (cpu, old) :: saved, l =>
    match l.modifyCpu cpu fun _ => old with
    | .error stop => .error stop
    | .ok l => revertCpus saved l

/-- The rollback after a `shoot_err`. -/
def revertAll (r : Round κ) (l : Lord θ κ) : Except Stop (Lord θ κ) :=
  match l.revertTasks (r.assigned.map (·.2.pid)) with
  | .error stop => .error stop
  | .ok l => l.revertCpus r.oldCpuStates

/-- The saved record of one CPU, if there is one, is written back. -/
def revertCpu (saved : List (Nat × κ)) (cpu : Nat) (l : Lord θ κ) : Except Stop (Lord θ κ) :=
  match saved.lookup cpu with
  | none => .ok l
  | some old => l.modifyCpu cpu fun _ => old

/-- `for (auto f : fail)` -/
def revertFailed (saved : List (Nat × κ)) : List (Nat × Int32) → Lord θ κ → Except Stop (Lord θ κ)
  | [], l => .ok l
  | (cpu, pid) :: fail, l =>
    match l.revertTask pid.toUInt32 with
    | .error stop => .error stop
    | .ok l =>
      match l.revertCpu saved cpu with
      | .error stop => .error stop
      | .ok l => revertFailed saved fail l

/-- The area after `commit_shoot_message(assigned, seq_)`. -/
def commit (r : Round κ) (l : Lord θ κ) : Option CosShootArea :=
  l.sa.commitShootMessage r.assigned l.seq.toUInt16

/-- A call of `shoot_task`: the mask it is given, and the area that the kernel finds. -/
structure ShootCall where
  mask : CpuSet
  sa : CosShootArea

/-- `schedule` from `if (assigned.empty())` to `shoot_task`: the call that is made, if one is. -/
def shootCall (r : Round κ) (l : Lord θ κ) : Except Stop (Option ShootCall) :=
  if r.assigned.isEmpty then .ok none
  else
    match l.commit r with
    | none => .error .outOfRange
    | some sa => .ok (some ⟨r.assignedMask, sa⟩)

/-- The area when the call returns. -/
def ShootCall.answered (answer : ShootAnswer) (call : ShootCall) : CosShootArea :=
  call.sa.shootTask call.mask answer.flags

/-- The rest of `schedule`, with the area as `shoot_task` has left it. -/
def afterShoot (cpuNum : Nat) (answer : ShootAnswer) (r : Round κ) (sa : CosShootArea) (l : Lord θ κ) :
    Except Stop (Lord θ κ) :=
  if answer.err ≠ 0 then ({ l with sa } : Lord θ κ).revertAll r
  else
    match sa.checkShootState cpuNum with
    | none => .error .outOfRange
    | some (fail, sa) => ({ l with sa } : Lord θ κ).revertFailed r.oldCpuStates fail

/-- `schedule` from `if (assigned.empty())` on. -/
def shoot (cpuNum : Nat) (answer : ShootAnswer) (r : Round κ) (l : Lord θ κ) : Except Stop (Lord θ κ) :=
  match l.shootCall r with
  | .error stop => .error stop
  | .ok none => .ok l
  | .ok (some call) => l.afterShoot cpuNum answer r (call.answered answer)

/-- The area when `shoot_task` returns. -/
def shotArea (answer : ShootAnswer) (r : Round κ) (l : Lord θ κ) : Option CosShootArea :=
  (l.commit r).map (·.shootTask r.assignedMask answer.flags)

theorem shoot_of_empty {cpuNum : Nat} {answer : ShootAnswer} {r : Round κ} {l : Lord θ κ}
    (hempty : r.assigned.isEmpty = true) : l.shoot cpuNum answer r = .ok l := by
  rw [shoot, shootCall, if_pos hempty]

theorem shoot_of_nonempty {cpuNum : Nat} {answer : ShootAnswer} {r : Round κ} {l : Lord θ κ}
    (hempty : ¬ r.assigned.isEmpty = true) :
    l.shoot cpuNum answer r =
      match l.shotArea answer r with
      | none => .error .outOfRange
      | some sa => l.afterShoot cpuNum answer r sa := by
  rw [shoot, shootCall, if_neg hempty, shotArea]
  cases l.commit r with
  | none => rfl
  | some sa => rfl

end Lord

/-! ### Schedulers -/

/-- A lord as it runs on `cpuNum` CPUs: `assign` is `schedule` up to `if (assigned.empty())`, on what one call reads from outside. -/
structure Scheduler (θ κ ι : Type) where
  cpuNum : Nat
  assign : ι → Lord θ κ → Except Stop (Lord θ κ × Round κ)
  answer : ι → ShootAnswer

namespace Scheduler

variable {θ κ ι : Type}

def schedule (S : Scheduler θ κ ι) (input : ι) (l : Lord θ κ) : Except Stop (Lord θ κ) :=
  match S.assign input l with
  | .error stop => .error stop
  | .ok (l, r) => l.shoot S.cpuNum (S.answer input) r

inductive Op (ι : Type)
  | msg (m : CosMsg)
  | schedule (input : ι)

variable [Inhabited θ] [CpuRecord κ]

def perform (S : Scheduler θ κ ι) : Op ι → Lord θ κ → Except Stop (Lord θ κ)
  | .msg m, l => l.handle m
  | .schedule input, l => S.schedule input l

/-- A call that `allowed` admits and that returns. -/
def Step (S : Scheduler θ κ ι) (allowed : Lord θ κ → Op ι → Prop) (l : Lord θ κ) (op : Op ι)
    (l' : Lord θ κ) : Prop :=
  allowed l op ∧ S.perform op l = .ok l'

end Scheduler

end CosUserspace
