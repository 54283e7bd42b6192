import CosUserspace.Library.Buffer
import Mathlib.Algebra.Ring.Nat
import Mathlib.Data.Finset.Basic

/-!
# The types shared with the kernel

The records of `kernel/message_queue.h` and `kernel/shoot_area.h`, field widths included, and the reasons why a call into the library does not return.
-/

namespace CosUserspace

/-! ### Messages -/

/-- `_MQ_DATA_SIZE` -/
def mqDataSize : Nat := 511

structure CosMsg where
  pid : UInt16
  type : UInt16
  seq : UInt32
  deriving DecidableEq, Repr, Inhabited

/-- The values of `cos_msg.type`, counted from `_MSG_TASK_FIRST`. -/
inductive MsgType
  | runnable
  | blocked
  | new
  | dead
  | preempt
  | newBlocked
  | cosPreempt
  deriving DecidableEq, Repr

def MsgType.code : MsgType → UInt16
  | .runnable => 1
  | .blocked => 2
  | .new => 3
  | .dead => 4
  | .preempt => 5
  | .newBlocked => 6
  | .cosPreempt => 7

/-- The case of `switch (msg.type)` that is taken, if it is not the default one. -/
def MsgType.ofCode (code : UInt16) : Option MsgType :=
  [runnable, blocked, new, dead, preempt, newBlocked, cosPreempt].find? (·.code = code)

@[simp] theorem MsgType.ofCode_code (kind : MsgType) : ofCode kind.code = some kind := by
  cases kind <;> decide

/-! ### Shoots -/

/-- `_SHOOT_AREA_SIZE` -/
def shootAreaSize : Nat := 511

/-- `_SA_RIGHT` -/
def saRight : UInt32 := 0

/-- `_SA_ERROR` -/
def saError : UInt32 := 1

structure CosShootArg where
  pid : UInt32
  info : UInt32
  deriving DecidableEq, Repr, Inhabited

structure CosShootArea where
  seq : UInt64
  area : Buffer CosShootArg

/-- A `cpu_set_t`. -/
abbrev CpuSet := Finset Nat

/-- `CPU_SETSIZE` -/
def cpuSetSize : Nat := 1024

/-- `CPU_SET`, which ignores a CPU that the set has no bit for. -/
def CpuSet.add (cpu : Nat) (mask : CpuSet) : CpuSet :=
  if cpu < cpuSetSize then insert cpu mask else mask

/-- What the kernel does in one `shoot_task`: the value it returns and the CPUs it flags among those of the mask. -/
structure ShootAnswer where
  err : Int32
  flags : Finset Nat

/-- An error flags nothing. -/
def ShootAnswer.Clean (answer : ShootAnswer) : Prop := answer.err ≠ 0 → answer.flags = ∅

/-- Every shot of the round took. -/
def ShootAnswer.Success (answer : ShootAnswer) : Prop := answer.err = 0 ∧ answer.flags = ∅

theorem ShootAnswer.Success.clean {answer : ShootAnswer} (h : answer.Success) : answer.Clean :=
  fun _ => h.2

/-! ### Stops -/

/-- Why a call does not return: `exit(1)` after a log line, a failed assert, a null dereference, an access outside a buffer, or a loop that never ends. -/
inductive Stop
  /-- `same new_thread message, kernel BUGGGGGG!` -/
  | sameNewThread
  /-- `task dead before task new, kernel BUGGGGGG!` -/
  | deadBeforeNew
  /-- `task preempt before task new, kernel BUGGGGGG!` -/
  | preemptBeforeNew
  /-- `task is picked before task new or after task dead, kernel BUGGGGGG!` -/
  | pickedBeforeNew
  /-- `should not remove an unqueued task from the runqueue!` -/
  | removeUnqueued
  /-- the assert that a preempted task is not Blocked -/
  | assertNotBlocked
  /-- the assert that the CPU of a task preempted by cos is COS -/
  | assertCpuCos
  /-- the assert that the task of a COS CPU is OnCpu -/
  | assertOnCpu
  /-- the assert that an epistle key is not zero -/
  | assertKey
  /-- a COS CPU names a task that is not in `alive_tasks_` -/
  | nullOwner
  /-- the rollback looks up a task that is not in `alive_tasks_` -/
  | nullRollback
  | outOfRange
  /-- the probe loop of the epistle finds neither its key nor an empty slot -/
  | epistleSpins
  deriving DecidableEq, Repr

end CosUserspace
