import CosUserspace.Library.Tracking
import CosUserspace.Lord.Model

/-!
# The life of a task

Seen from its messages a task is unknown, Queued, OnCpu or Blocked, and `Lifecycle.next` says what a message does to that. A handler moves one task along its life, makes the run queue follow, and writes the CPU record the task leaves: `handle_eq` proves this of every message in every sound state, and every invariant over messages is proved from it.
-/

namespace CosUserspace

/-- The state of the task after a message about it; `none` is a task the lord does not know. -/
def Lifecycle.next : MsgType → Option RunState → Except Stop (Option RunState)
  | .runnable, s => .ok (s.map fun _ => .queued)
  | .blocked, s => .ok (s.map fun _ => .blocked)
  | .new, none => .ok (some .queued)
  | .new, some _ => .error .sameNewThread
  | .newBlocked, none => .ok (some .blocked)
  | .newBlocked, some _ => .error .sameNewThread
  | .dead, none => .error .deadBeforeNew
  | .dead, some _ => .ok none
  | .preempt, none | .cosPreempt, none => .error .preemptBeforeNew
  | .preempt, some .blocked | .cosPreempt, some .blocked => .error .assertNotBlocked
  | .preempt, some _ | .cosPreempt, some _ => .ok (some .queued)

namespace Lifecycle

theorem next_ne_onCpu {kind : MsgType} {s s' : Option RunState} (hnext : next kind s = .ok s') :
    s' ≠ some .onCpu := by
  rintro rfl
  rcases kind <;> rcases s with _ | _ | _ | _ <;> simp [next] at hnext

/-- Only BLOCKED and DEAD take a task out of the line for a CPU. -/
theorem next_eq_queued {kind : MsgType} {state : RunState} {s' : Option RunState} (hstate : state ≠ .blocked)
    (hnext : next kind (some state) = .ok s') (hblocked : kind ≠ .blocked) (hdead : kind ≠ .dead) : s' = some .queued := by
  cases kind with
  | runnable => exact (Except.ok.inj hnext).symm
  | blocked => exact absurd rfl hblocked
  | dead => exact absurd rfl hdead
  | new | newBlocked => cases hnext
  | preempt | cosPreempt =>
    cases state with
    | blocked => exact absurd rfl hstate
    | queued | onCpu => exact (Except.ok.inj hnext).symm

theorem next_error {kind : MsgType} {s : Option RunState} {stop : Stop}
    (hnext : next kind s = .error stop) :
    stop = .sameNewThread ∨ stop = .deadBeforeNew ∨ stop = .preemptBeforeNew ∨ stop = .assertNotBlocked := by
  rcases kind <;> rcases s with _ | _ | _ | _ <;> simp [next] at hnext <;> simp [← hnext]

end Lifecycle

/-- What a message writes to the record of the CPU that its task leaves. -/
def cpuWrite {κ : Type} [CpuRecord κ] : MsgType → κ → κ
  | .blocked | .dead => fun _ => CpuRecord.idle
  | .preempt => CpuRecord.takenByCfs
  | .runnable | .new | .newBlocked | .cosPreempt => id

namespace Lord

variable {θ κ : Type}

/-- What holds of a lord in every run, whatever messages arrive. -/
structure Sound (cpuNum : Nat) (l : Lord θ κ) : Prop where
  tracks : Tracks l.rq l.status .queued
  keyed : ∀ tid task, l.aliveTasks tid = some task → task.pid.toUInt32 = tid
  onCpu : ∀ tid task, l.aliveTasks tid = some task → task.state = .onCpu →
    ∃ cpu : Nat, task.cpuId = cpu ∧ cpu < cpuNum
  capacity : l.cpuStates.capacity = cpuNum
  clear : l.sa.Clear cpuNum

theorem Sound.new [CpuRecord κ] (cpuNum : Nat) (lordCpu : Int) (lordPid : UInt32) :
    (new cpuNum lordCpu lordPid : Lord θ κ).Sound cpuNum where
  tracks := Tracks.empty fun _ => by simp [status, Lord.new]
  keyed := by simp [Lord.new]
  onCpu := by simp [Lord.new]
  capacity := by simp [Lord.new, Buffer.reserve]
  clear := CosShootArea.Clear.init cpuNum

/-- The record of one task is written, under its own id. -/
theorem keyed_update {alive : UInt32 → Option (Task θ)}
    (hkeyed : ∀ tid task, alive tid = some task → task.pid.toUInt32 = tid)
    {pid : UInt32} {new : Task θ} (hnew : new.pid.toUInt32 = pid) (tid : UInt32) (task : Task θ)
    (halive : Function.update alive pid (some new) tid = some task) : task.pid.toUInt32 = tid := by
  by_cases heq : tid = pid
  · rw [heq, Function.update_self] at halive
    obtain rfl := Option.some.inj halive
    exact hnew.trans heq.symm
  · rw [Function.update_of_ne heq] at halive
    exact hkeyed tid task halive

theorem status_of_aliveTasks {l : Lord θ κ} {tid : UInt32} {task : Task θ}
    (halive : l.aliveTasks tid = some task) : l.status tid = some task.state := by
  rw [status, halive, Option.map_some]

theorem status_eq_none {l : Lord θ κ} {tid : UInt32} : l.status tid = none ↔ l.aliveTasks tid = none := by
  rw [status, Option.map_eq_none_iff]

theorem status_eq_some {l : Lord θ κ} {tid : UInt32} {state : RunState} :
    l.status tid = some state ↔ ∃ task, l.aliveTasks tid = some task ∧ task.state = state := by
  rw [status, Option.map_eq_some_iff]

variable {cpuNum : Nat} {l : Lord θ κ}

theorem Sound.removeFromRq_eq (hsound : l.Sound cpuNum) {tid : UInt32}
    (hqueued : l.status tid = some .queued) :
    l.removeFromRq tid = .ok { l with rq := l.rq.erase tid } := by
  have hmem : tid ∈ l.rq := (hsound.tracks.mem_iff tid).mpr hqueued
  simp [removeFromRq, RunQueue.removeFromRq_eq hmem]

theorem Sound.modifyCpu_eq (hsound : l.Sound cpuNum) {tid : UInt32} {task : Task θ}
    (halive : l.aliveTasks tid = some task) (honCpu : task.state = .onCpu) (f : κ → κ) :
    l.modifyCpu task.cpuId f =
      .ok { l with cpuStates := l.cpuStates.set task.cpuId.toNat (f (l.cpuStates.cell task.cpuId.toNat)) } := by
  obtain ⟨cpu, hcpu, hlt⟩ := hsound.onCpu tid task halive honCpu
  rw [← hsound.capacity] at hlt
  simp [modifyCpu, hcpu, Buffer.modify_natCast f hlt]

section Move

variable [Inhabited θ] [CpuRecord κ]

/-- The CPU table after a message of type `kind` about `tid`. -/
def cpusAfter (kind : MsgType) (tid : UInt32) (l : Lord θ κ) : Buffer κ :=
  match l.aliveTasks tid with
  | some task =>
    if task.state = .onCpu then
      l.cpuStates.set task.cpuId.toNat (cpuWrite kind (l.cpuStates.cell task.cpuId.toNat))
    else l.cpuStates
  | none => l.cpuStates

/-- The lord after a message of type `kind` takes the task `tid` to `next`. -/
def move (kind : MsgType) (tid : UInt32) (next : Option RunState) (l : Lord θ κ) : Lord θ κ :=
  { l with
    rq := requeue .queued l.rq tid (l.status tid) next
    aliveTasks := Function.update l.aliveTasks tid
      (next.map fun state => { (l.aliveTasks tid).getD (Task.new tid.toInt32) with state })
    cpuStates := l.cpusAfter kind tid }

/-- The record of the CPU that `tid` is on is not that of a COS CPU. -/
def cpuLost (tid : UInt32) (l : Lord θ κ) : Bool :=
  match l.aliveTasks tid with
  | some task => task.state = .onCpu && !CpuRecord.isCos (l.cpuStates.cell task.cpuId.toNat)
  | none => false

theorem status_move (kind : MsgType) (tid : UInt32) (next : Option RunState) (l : Lord θ κ) :
    (l.move kind tid next).status = Function.update l.status tid next := by
  funext t
  by_cases ht : t = tid
  · subst ht
    cases next <;> simp [status, move]
  · simp [status, move, ht]

theorem aliveTasks_move_of_ne {kind : MsgType} {tid t : UInt32} {next : Option RunState} {l : Lord θ κ}
    (hne : t ≠ tid) : (l.move kind tid next).aliveTasks t = l.aliveTasks t :=
  Function.update_of_ne hne ..

theorem aliveTasks_move_self (kind : MsgType) (tid : UInt32) (next : Option RunState) (l : Lord θ κ) :
    (l.move kind tid next).aliveTasks tid =
      next.map fun state => { (l.aliveTasks tid).getD (Task.new tid.toInt32) with state } :=
  Function.update_self ..

/-! ### The handlers are moves -/

omit [Inhabited θ] in
theorem Sound.leave_eq (hsound : l.Sound cpuNum) {tid : UInt32} {task : Task θ}
    (halive : l.aliveTasks tid = some task) (kind : MsgType) (hkind : cpuWrite (κ := κ) kind = fun _ => CpuRecord.idle)
    (next : Option RunState) (hnext : next ≠ some .queued) :
    l.leave tid task = .ok
      { l with
        rq := requeue .queued l.rq tid (l.status tid) next
        cpuStates := l.cpusAfter kind tid } := by
  have hstatus := status_of_aliveTasks halive
  cases hstate : task.state with
  | queued =>
    rw [hstate] at hstatus
    simp [leave, hstate, hsound.removeFromRq_eq hstatus, requeue, hstatus, hnext, cpusAfter, halive]
  | onCpu =>
    rw [hstate] at hstatus
    simp [leave, hstate, hsound.modifyCpu_eq halive hstate, requeue, hstatus, hnext, cpusAfter, halive, hkind]
  | blocked =>
    rw [hstate] at hstatus
    simp [leave, hstate, requeue, hstatus, hnext, cpusAfter, halive]

/-- A message that finds the task already Queued leaves everything as it is. -/
theorem move_queued {kind : MsgType} {tid : UInt32} {task : Task θ} (halive : l.aliveTasks tid = some task)
    (hstate : task.state = .queued) : l.move kind tid (some .queued) = l := by
  have hsame : { task with state := RunState.queued } = task := by rw [← hstate]
  have hupdate : Function.update l.aliveTasks tid (some task) = l.aliveTasks := by rw [← halive]; simp
  simp [move, cpusAfter, requeue, status, halive, hstate, hsame, hupdate]

/-- The task enters the queue, from a CPU whose record is not written. -/
theorem move_enqueue {kind : MsgType} {tid : UInt32} (hwrite : cpuWrite (κ := κ) kind = id)
    (hstatus : l.status tid ≠ some .queued) :
    l.move kind tid (some .queued) = (l.enqueue tid).setTask tid
      { (l.aliveTasks tid).getD (Task.new tid.toInt32) with state := .queued } := by
  have hcpus : l.cpusAfter kind tid = l.cpuStates := by
    unfold cpusAfter
    split
    · split
      · exact Buffer.ext rfl rfl fun i => by simp [Buffer.set_cell, hwrite]; intro hi; rw [hi]
      · rfl
    · rfl
  simp [move, hcpus, requeue, hstatus, enqueue, RunQueue.enqueue, setTask]

section Known

variable {m : CosMsg} {task : Task θ}

theorem consumeMsgTaskRunnable_eq (halive : l.aliveTasks m.pid.toUInt32 = some task) :
    l.consumeMsgTaskRunnable m = .ok (l.move .runnable m.pid.toUInt32 (some .queued)) := by
  have hstatus := status_of_aliveTasks halive
  by_cases hstate : task.state = .queued
  · simp [consumeMsgTaskRunnable, halive, hstate, move_queued halive hstate]
  · rw [move_enqueue rfl (by simpa [hstatus] using hstate)]
    simp [consumeMsgTaskRunnable, halive, hstate]

theorem Sound.consumeMsgTaskBlocked_eq (hsound : l.Sound cpuNum)
    (halive : l.aliveTasks m.pid.toUInt32 = some task) :
    l.consumeMsgTaskBlocked m = .ok (l.move .blocked m.pid.toUInt32 (some .blocked)) := by
  have hleave := hsound.leave_eq halive .blocked rfl (some .blocked) (by simp)
  simp [consumeMsgTaskBlocked, halive, hleave, move, setTask]

theorem Sound.consumeMsgTaskDead_eq (hsound : l.Sound cpuNum)
    (halive : l.aliveTasks m.pid.toUInt32 = some task) :
    l.consumeMsgTaskDead m = .ok (l.move .dead m.pid.toUInt32 none) := by
  have hleave := hsound.leave_eq halive .dead rfl none (by simp)
  simp [consumeMsgTaskDead, halive, hleave, move, eraseTask]

theorem Sound.consumeMsgTaskPreemptCos_eq (hsound : l.Sound cpuNum)
    (halive : l.aliveTasks m.pid.toUInt32 = some task) (hstate : task.state ≠ .blocked) :
    l.consumeMsgTaskPreemptCos m =
      if l.cpuLost m.pid.toUInt32 then .error .assertCpuCos
      else .ok (l.move .cosPreempt m.pid.toUInt32 (some .queued)) := by
  cases hcase : task.state with
  | queued => simp [consumeMsgTaskPreemptCos, halive, hcase, move_queued halive hcase, cpuLost]
  | onCpu =>
    obtain ⟨cpu, hcpu, hlt⟩ := hsound.onCpu _ _ halive hcase
    rw [← hsound.capacity] at hlt
    have hstatus := status_of_aliveTasks halive
    rw [move_enqueue rfl (by simp [hstatus, hcase])]
    simp [consumeMsgTaskPreemptCos, halive, hcase, cpuLost, setTask, enqueue, hcpu, Buffer.read_natCast hlt]
    cases CpuRecord.isCos (l.cpuStates.cell cpu) <;> rfl
  | blocked => exact absurd hcase hstate

theorem Sound.consumeMsgTaskPreempt_eq (hsound : l.Sound cpuNum)
    (halive : l.aliveTasks m.pid.toUInt32 = some task) (hstate : task.state ≠ .blocked) :
    l.consumeMsgTaskPreempt m = .ok (l.move .preempt m.pid.toUInt32 (some .queued)) := by
  cases hcase : task.state with
  | queued => simp [consumeMsgTaskPreempt, halive, hcase, move_queued halive hcase]
  | onCpu =>
    have hstatus := status_of_aliveTasks halive
    obtain ⟨cpu, hcpu, hlt⟩ := hsound.onCpu _ _ halive hcase
    rw [← hsound.capacity] at hlt
    simp [consumeMsgTaskPreempt, halive, hcase, modifyCpu, setTask, enqueue, RunQueue.enqueue, hcpu,
      Buffer.modify_natCast _ hlt, move, requeue, hstatus, cpusAfter, cpuWrite]
  | blocked => exact absurd hcase hstate

end Known

/-- **A handler is a move along the life of its task**, unless the life does not go on or the assert on the CPU of a task preempted by cos fails. -/
theorem Sound.handle_eq (hsound : l.Sound cpuNum) (m : CosMsg) :
    l.handle m =
      match MsgType.ofCode m.type with
      | none => .ok l
      | some kind =>
        match Lifecycle.next kind (l.status m.pid.toUInt32) with
        | .error stop => .error stop
        | .ok next =>
          if kind = .cosPreempt ∧ l.cpuLost m.pid.toUInt32 then .error .assertCpuCos
          else .ok (l.move kind m.pid.toUInt32 next) := by
  unfold handle
  cases MsgType.ofCode m.type with
  | none => rfl
  | some kind =>
    generalize htid : m.pid.toUInt32 = tid
    cases halive : l.aliveTasks tid with
    | none =>
      have hstatus : l.status tid = none := status_eq_none.mpr halive
      have hsame : Function.update l.aliveTasks tid none = l.aliveTasks := by rw [← halive]; simp
      cases kind <;>
        simp [Lifecycle.next, hstatus, consumeMsgTaskRunnable, consumeMsgTaskBlocked, consumeMsgTaskNew,
          consumeMsgTaskNewBlocked, consumeMsgTaskDead, consumeMsgTaskPreempt, consumeMsgTaskPreemptCos,
          htid, halive, move, requeue, cpusAfter, hsame, enqueue, RunQueue.enqueue, setTask, Task.new]
    | some task =>
      have hstatus := status_of_aliveTasks halive
      subst htid
      cases kind with
      | runnable => simp [Lifecycle.next, hstatus, consumeMsgTaskRunnable_eq halive]
      | blocked => simp [Lifecycle.next, hstatus, hsound.consumeMsgTaskBlocked_eq halive]
      | new => simp [Lifecycle.next, hstatus, consumeMsgTaskNew, halive]
      | dead => simp [Lifecycle.next, hstatus, hsound.consumeMsgTaskDead_eq halive]
      | newBlocked => simp [Lifecycle.next, hstatus, consumeMsgTaskNewBlocked, halive]
      | preempt =>
        cases hstate : task.state with
        | blocked => simp [Lifecycle.next, hstatus, consumeMsgTaskPreempt, halive, hstate]
        | queued | onCpu =>
          simp [Lifecycle.next, hstatus, hstate, hsound.consumeMsgTaskPreempt_eq halive]
      | cosPreempt =>
        cases hstate : task.state with
        | blocked => simp [Lifecycle.next, hstatus, consumeMsgTaskPreemptCos, halive, hstate]
        | queued | onCpu =>
          simp [Lifecycle.next, hstatus, hstate, hsound.consumeMsgTaskPreemptCos_eq halive]

theorem Sound.handle_ok (hsound : l.Sound cpuNum) {m : CosMsg} {l' : Lord θ κ} (hok : l.handle m = .ok l') :
    (MsgType.ofCode m.type = none ∧ l' = l) ∨
    ∃ kind next, MsgType.ofCode m.type = some kind ∧
      Lifecycle.next kind (l.status m.pid.toUInt32) = .ok next ∧
      (kind = .cosPreempt → l.cpuLost m.pid.toUInt32 = false) ∧
      l' = l.move kind m.pid.toUInt32 next := by
  rw [hsound.handle_eq] at hok
  cases hkind : MsgType.ofCode m.type with
  | none =>
    rw [hkind] at hok
    exact .inl ⟨rfl, (Except.ok.inj hok).symm⟩
  | some kind =>
    cases hnext : Lifecycle.next kind (l.status m.pid.toUInt32) with
    | error stop => simp [hkind, hnext] at hok
    | ok next =>
      simp only [hkind, hnext] at hok
      split at hok
      · cases hok
      · rename_i hlost
        refine .inr ⟨kind, next, rfl, hnext, fun hcos => ?_, (Except.ok.inj hok).symm⟩
        simpa [hcos] using hlost

theorem Sound.handle_error (hsound : l.Sound cpuNum) {m : CosMsg} {stop : Stop}
    (herror : l.handle m = .error stop) :
    (∃ kind, MsgType.ofCode m.type = some kind ∧
      Lifecycle.next kind (l.status m.pid.toUInt32) = .error stop) ∨
    (stop = .assertCpuCos ∧ MsgType.ofCode m.type = some .cosPreempt ∧ l.cpuLost m.pid.toUInt32 = true) := by
  rw [hsound.handle_eq] at herror
  cases hkind : MsgType.ofCode m.type with
  | none => simp [hkind] at herror
  | some kind =>
    cases hnext : Lifecycle.next kind (l.status m.pid.toUInt32) with
    | error stop' =>
      simp only [hkind, hnext] at herror
      exact .inl ⟨kind, rfl, by rw [hnext, Except.error.inj herror]⟩
    | ok next =>
      simp only [hkind, hnext] at herror
      split at herror
      · rename_i hlost
        exact .inr ⟨(Except.error.inj herror).symm, by rw [hlost.1], hlost.2⟩
      · cases herror

omit [Inhabited θ] in
@[simp] theorem cpusAfter_capacity (kind : MsgType) (tid : UInt32) (l : Lord θ κ) :
    (l.cpusAfter kind tid).capacity = l.cpuStates.capacity := by
  unfold cpusAfter
  split
  · split <;> rfl
  · rfl

omit [Inhabited θ] in
theorem cpusAfter_cell_self (kind : MsgType) {tid : UInt32} {task : Task θ} {cpu : Nat}
    (halive : l.aliveTasks tid = some task) (honCpu : task.state = .onCpu) (hcpu : task.cpuId = cpu) :
    (l.cpusAfter kind tid).cell cpu = cpuWrite kind (l.cpuStates.cell cpu) := by
  simp [cpusAfter, halive, honCpu, hcpu]

omit [Inhabited θ] in
theorem Sound.cpusAfter_cell_of_ne (hsound : l.Sound cpuNum) (kind : MsgType) {tid : UInt32} {cpu : Nat}
    (hne : ∀ task, l.aliveTasks tid = some task → task.state = .onCpu → task.cpuId ≠ cpu) :
    (l.cpusAfter kind tid).cell cpu = l.cpuStates.cell cpu := by
  cases halive : l.aliveTasks tid with
  | none => simp [cpusAfter, halive]
  | some task =>
    by_cases honCpu : task.state = .onCpu
    · obtain ⟨c, hc, -⟩ := hsound.onCpu tid task halive honCpu
      have hcpu : cpu ≠ c := fun heq => hne task halive honCpu (by rw [hc, heq])
      simp [cpusAfter, halive, honCpu, hc, Buffer.set_cell, hcpu]
    · simp [cpusAfter, halive, honCpu]

omit [Inhabited θ] in
/-- A departure writes no CPU but the one of its task. -/
theorem Sound.cpusAfter_cell_other (hsound : l.Sound cpuNum) (kind : MsgType) {tid : UInt32} {task : Task θ}
    {cpu c : Nat} (halive : l.aliveTasks tid = some task) (hcpu : task.cpuId = cpu) (hc : c ≠ cpu) :
    (l.cpusAfter kind tid).cell c = l.cpuStates.cell c := by
  apply hsound.cpusAfter_cell_of_ne kind
  intro task' halive' _ hcpu'
  obtain rfl := Option.some.inj (halive.symm.trans halive')
  exact hc (Int.ofNat_inj.mp (hcpu'.symm.trans hcpu))

/-- A task that is OnCpu after a move was so before, and is not the one that moved. -/
theorem onCpu_of_move {kind : MsgType} {tid t : UInt32} {next : Option RunState} {task : Task θ}
    (hnext : next ≠ some .onCpu) (halive : (l.move kind tid next).aliveTasks t = some task)
    (honCpu : task.state = .onCpu) : t ≠ tid ∧ l.aliveTasks t = some task := by
  have hne : t ≠ tid := by
    rintro rfl
    rw [aliveTasks_move_self, Option.map_eq_some_iff] at halive
    obtain ⟨state, hstate, rfl⟩ := halive
    exact hnext (hstate.trans (congrArg some honCpu))
  exact ⟨hne, (aliveTasks_move_of_ne hne).symm.trans halive⟩

theorem Sound.move (hsound : l.Sound cpuNum) {kind : MsgType} {tid : UInt32} {next : Option RunState}
    (hnext : next ≠ some .onCpu) : (l.move kind tid next).Sound cpuNum where
  tracks := by
    rw [status_move]
    exact hsound.tracks.requeue tid next
  keyed t task halive := by
    by_cases ht : t = tid
    · subst ht
      rw [aliveTasks_move_self, Option.map_eq_some_iff] at halive
      obtain ⟨state, -, rfl⟩ := halive
      cases hold : l.aliveTasks t with
      | none => simp [Task.new]
      | some old => simpa [hold] using hsound.keyed t old hold
    · rw [aliveTasks_move_of_ne ht] at halive
      exact hsound.keyed t task halive
  onCpu t task halive honCpu := hsound.onCpu t task (onCpu_of_move hnext halive honCpu).2 honCpu
  capacity := by simpa [Lord.move] using hsound.capacity
  clear := hsound.clear

theorem Sound.handle (hsound : l.Sound cpuNum) {m : CosMsg} {l' : Lord θ κ} (hok : l.handle m = .ok l') :
    l'.Sound cpuNum := by
  rcases hsound.handle_ok hok with ⟨-, rfl⟩ | ⟨kind, next, -, hnext, -, rfl⟩
  · exact hsound
  · exact hsound.move (Lifecycle.next_ne_onCpu hnext)

end Move

end Lord

end CosUserspace
