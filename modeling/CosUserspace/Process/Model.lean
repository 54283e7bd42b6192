import CosUserspace.Lord.Model
import CosUserspace.MessageQueue.Delivery

/-!
# The scheduler process

`main` of both schedulers calls `consume_message` and `schedule` in turn, for ever, while the kernel goes on writing to the queue. `consume_message` reads the shared queue access by access and hands each message to its handler when `consume_msg` returns it; `schedule` does not touch the queue. A step of the process is one step of the kernel or the next access of `main`.
-/

namespace CosUserspace

namespace Channel

/-- What `consume_msg` returns with the next access of the lord, if it returns then. -/
def delivers (s : Channel) : Option CosMsg :=
  match s.consumer with
  | .loop | .reading => none
  | .entered => if s.mq.empty then some default else none
  | .advancing ret => some ret

/-- `while (!mq_->empty())` ends with the next access. -/
def leaves (s : Channel) : Bool :=
  match s.consumer with
  | .loop => s.mq.empty
  | .entered | .reading | .advancing _ => false

theorem consumed_consume (s : Channel) : s.consume.consumed = s.consumed ++ s.delivers.toList := by
  cases hpc : s.consumer with
  | loop | entered => cases htest : s.mq.empty <;> simp [consume, delivers, hpc, htest, deliver]
  | reading | advancing ret => simp [consume, delivers, hpc, deliver]

end Channel

/-- Where `main` is. -/
inductive MainPc
  | consumeMessage
  | schedule
  /-- a call did not return -/
  | stopped (stop : Stop)

structure Process (θ κ : Type) where
  channel : Channel
  lord : Lord θ κ
  pc : MainPc

namespace Process

variable {θ κ ι : Type} [CpuRecord κ]

/-- A fresh lord before an empty queue. -/
def init (S : Scheduler θ κ ι) (lordCpu : Int) (lordPid : UInt32) (data : Fin mqDataSize → CosMsg) : Process θ κ where
  channel := .init data
  lord := .new S.cpuNum lordCpu lordPid
  pc := .consumeMessage

variable [Inhabited θ]

/-- The next access of `main`; `input` is what `schedule` reads from outside, if it is called now. -/
def main (S : Scheduler θ κ ι) (input : ι) (s : Process θ κ) : Process θ κ :=
  match s.pc with
  | .consumeMessage =>
    if s.channel.leaves then { s with pc := .schedule }
    else
      match s.channel.delivers with
      | none => { s with channel := s.channel.consume }
      | some msg =>
        match s.lord.consumeMessage [msg] with
        | .error stop => { s with channel := s.channel.consume, pc := .stopped stop }
        | .ok lord => { s with channel := s.channel.consume, lord }
  | .schedule =>
    match S.schedule input s.lord with
    | .error stop => { s with pc := .stopped stop }
    | .ok lord => { s with lord, pc := .consumeMessage }
  | .stopped _ => s

inductive Access (ι : Type)
  | kernel (action : Channel.Action)
  | main (input : ι)

/-- The input that `main` would read with this access. -/
def Access.input? : Access ι → Option ι
  | .kernel _ => none
  | .main input => some input

/-- The kernel writes a slot while it has room and none of the waiting messages lies there, or publishes what it has written; or it is the turn of `main`. -/
inductive Step (S : Scheduler θ κ ι) (allowed : ι → Prop) (s : Process θ κ) : Access ι → Process θ κ → Prop
  | kernel {action : Channel.Action} {channel : Channel} (hkernel : action ≠ .consume)
      (hstep : Channel.CarefulStep s.channel action channel) : Step S allowed s (.kernel action) { s with channel }
  | main {input : ι} (hinput : allowed input) : Step S allowed s (.main input) (s.main S input)

/-! ### What an access of `main` can do -/

section Cases

variable {S : Scheduler θ κ ι} {input : ι} {s : Process θ κ}

theorem main_leaves (hpc : s.pc = .consumeMessage) (hleaves : s.channel.leaves = true) :
    s.main S input = { s with pc := .schedule } := by
  simp [main, hpc, hleaves]

theorem main_reads (hpc : s.pc = .consumeMessage) (hleaves : s.channel.leaves = false)
    (hdelivers : s.channel.delivers = none) : s.main S input = { s with channel := s.channel.consume } := by
  simp [main, hpc, hleaves, hdelivers]

theorem main_delivers (hpc : s.pc = .consumeMessage) (hleaves : s.channel.leaves = false) {msg : CosMsg}
    (hdelivers : s.channel.delivers = some msg) {lord : Lord θ κ} (hok : s.lord.consumeMessage [msg] = .ok lord) :
    s.main S input = { s with channel := s.channel.consume, lord } := by
  simp [main, hpc, hleaves, hdelivers, hok]

theorem main_rejects (hpc : s.pc = .consumeMessage) (hleaves : s.channel.leaves = false) {msg : CosMsg}
    (hdelivers : s.channel.delivers = some msg) {stop : Stop} (herror : s.lord.consumeMessage [msg] = .error stop) :
    s.main S input = { s with channel := s.channel.consume, pc := .stopped stop } := by
  simp [main, hpc, hleaves, hdelivers, herror]

theorem main_schedules (hpc : s.pc = .schedule) {lord : Lord θ κ} (hok : S.schedule input s.lord = .ok lord) :
    s.main S input = { s with lord, pc := .consumeMessage } := by
  simp [main, hpc, hok]

theorem main_schedule_stops (hpc : s.pc = .schedule) {stop : Stop} (herror : S.schedule input s.lord = .error stop) :
    s.main S input = { s with pc := .stopped stop } := by
  simp [main, hpc, herror]

theorem main_stopped {stop : Stop} (hpc : s.pc = .stopped stop) : s.main S input = s := by
  simp [main, hpc]

/-- An access of `main` reads the queue, has a message handled, or calls `schedule`. -/
theorem main_cases (S : Scheduler θ κ ι) (input : ι) (s : Process θ κ) :
    (s.pc = .consumeMessage ∧ s.channel.leaves = true ∧ s.main S input = { s with pc := .schedule }) ∨
    (s.pc = .consumeMessage ∧ s.channel.leaves = false ∧ s.channel.delivers = none ∧
      s.main S input = { s with channel := s.channel.consume }) ∨
    (∃ msg, s.pc = .consumeMessage ∧ s.channel.leaves = false ∧ s.channel.delivers = some msg ∧
      ((∃ lord, s.lord.consumeMessage [msg] = .ok lord ∧
          s.main S input = { s with channel := s.channel.consume, lord }) ∨
        ∃ stop, s.lord.consumeMessage [msg] = .error stop ∧
          s.main S input = { s with channel := s.channel.consume, pc := .stopped stop })) ∨
    (s.pc = .schedule ∧
      ((∃ lord, S.schedule input s.lord = .ok lord ∧ s.main S input = { s with lord, pc := .consumeMessage }) ∨
        ∃ stop, S.schedule input s.lord = .error stop ∧ s.main S input = { s with pc := .stopped stop })) ∨
    ∃ stop, s.pc = .stopped stop ∧ s.main S input = s := by
  cases hpc : s.pc with
  | consumeMessage =>
    cases hleaves : s.channel.leaves with
    | true => exact .inl ⟨rfl, rfl, main_leaves hpc hleaves⟩
    | false =>
      cases hdelivers : s.channel.delivers with
      | none => exact .inr (.inl ⟨rfl, rfl, rfl, by rw [main_reads hpc hleaves hdelivers, hpc]⟩)
      | some msg =>
        refine .inr (.inr (.inl ⟨msg, rfl, rfl, rfl, ?_⟩))
        cases hhandled : s.lord.consumeMessage [msg] with
        | ok lord => exact .inl ⟨lord, rfl, by rw [main_delivers hpc hleaves hdelivers hhandled, hpc]⟩
        | error stop => exact .inr ⟨stop, rfl, main_rejects hpc hleaves hdelivers hhandled⟩
  | schedule =>
    refine .inr (.inr (.inr (.inl ⟨rfl, ?_⟩)))
    cases hschedule : S.schedule input s.lord with
    | ok lord => exact .inl ⟨lord, rfl, main_schedules hpc hschedule⟩
    | error stop => exact .inr ⟨stop, rfl, main_schedule_stops hpc hschedule⟩
  | stopped stop => exact .inr (.inr (.inr (.inr ⟨stop, rfl, main_stopped hpc⟩)))

end Cases

end Process

end CosUserspace
