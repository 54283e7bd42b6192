import CosUserspace.Kernel
import CosUserspace.Library.Runs

/-!
# The message queue

`cos_message_queue` is shared by the kernel, which writes slots and increments `head`, and the lord, which reads slots and increments `tail`. Both counters are 32 bits wide, run freely and wrap; a slot index is a counter modulo `_MQ_DATA_SIZE`. A step of the channel is one access to the shared queue: the kernel's slot write and its increment, and the accesses that `Lord::consume_message` and `MessageQueue::consume_msg` make, in program order.
-/

namespace CosUserspace

structure CosMessageQueue where
  head : UInt32
  tail : UInt32
  data : Fin mqDataSize → CosMsg

namespace CosMessageQueue

/-- `counter % _MQ_DATA_SIZE` -/
def index (counter : UInt32) : Fin mqDataSize :=
  ⟨counter.toNat % mqDataSize, Nat.mod_lt _ (by decide)⟩

/-- `MessageQueue::empty` -/
def empty (mq : CosMessageQueue) : Bool := mq.tail == mq.head

/-- `MessageQueue::consume_msg`, run without interruption. -/
def consumeMsg (mq : CosMessageQueue) : CosMsg × CosMessageQueue :=
  if mq.empty then (default, mq) else (mq.data (index mq.tail), { mq with tail := mq.tail + 1 })

/-- The kernel's room test: it writes only while fewer than `_MQ_DATA_SIZE` messages are unread. -/
def Room (mq : CosMessageQueue) : Prop := (mq.head - mq.tail).toNat < mqDataSize

def writeSlot (mq : CosMessageQueue) (m : CosMsg) : CosMessageQueue :=
  { mq with data := Function.update mq.data (index mq.head) m }

end CosMessageQueue

inductive ProducerPc
  | idle
  /-- The slot is written, `head` is not incremented yet. -/
  | wrote (m : CosMsg)

inductive ConsumerPc
  /-- `while (!mq_->empty())` -/
  | loop
  /-- `if (empty()) return {}` inside `consume_msg` -/
  | entered
  /-- `ret = data[tail % _MQ_DATA_SIZE]` -/
  | reading
  /-- `tail++` and the return of `ret` -/
  | advancing (ret : CosMsg)

/-- The shared queue, the two program counters, and what has been produced and consumed so far. -/
structure Channel where
  mq : CosMessageQueue
  producer : ProducerPc
  consumer : ConsumerPc
  produced : List CosMsg
  consumed : List CosMsg

namespace Channel

/-- The empty queue with both counters at zero. -/
def init (data : Fin mqDataSize → CosMsg) : Channel where
  mq := ⟨0, 0, data⟩
  producer := .idle
  consumer := .loop
  produced := []
  consumed := []

/-- `consume_msg` returns `m` to the loop of `consume_message`. -/
def deliver (s : Channel) (m : CosMsg) : Channel :=
  { s with consumer := .loop, consumed := s.consumed ++ [m] }

/-- The next access of the lord. -/
def consume (s : Channel) : Channel :=
  match s.consumer with
  | .loop => if s.mq.empty then s else { s with consumer := .entered }
  | .entered => if s.mq.empty then s.deliver default else { s with consumer := .reading }
  | .reading => { s with consumer := .advancing (s.mq.data (CosMessageQueue.index s.mq.tail)) }
  | .advancing ret => { s with mq := { s.mq with tail := s.mq.tail + 1 } }.deliver ret

inductive Action
  | write (m : CosMsg)
  | publish
  | consume

inductive Step : Channel → Action → Channel → Prop
  | write {s : Channel} {m : CosMsg} (hidle : s.producer = .idle) (hroom : s.mq.Room) :
      Step s (.write m) { s with mq := s.mq.writeSlot m, producer := .wrote m }
  | publish {s : Channel} {m : CosMsg} (hwrote : s.producer = .wrote m) :
      Step s .publish
        { s with
          mq := { s.mq with head := s.mq.head + 1 }
          producer := .idle
          produced := s.produced ++ [m] }
  | consume {s : Channel} : Step s .consume s.consume

/-- Uninterrupted, the accesses of the lord are `consume_msg`. -/
theorem consume_alone (s : Channel) (hpc : s.consumer = .entered) (hsome : s.mq.empty = false) :
    s.consume.consume.consume = { s with mq := s.mq.consumeMsg.2 }.deliver s.mq.consumeMsg.1 := by
  simp [consume, deliver, CosMessageQueue.consumeMsg, hpc, hsome]

end Channel

end CosUserspace
