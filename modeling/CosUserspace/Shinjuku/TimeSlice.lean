import CosUserspace.Shinjuku.Invariant

/-!
# The time slice of ShinjukuLord

A task keeps its CPU while its slice lasts and its hint is not IDLE: whatever else the messages and the rounds of a run do, its record and that of its CPU stay as they are and no round shoots onto the CPU. Only a message about the task itself, or one that takes another task off the same CPU and writes the record, ends this earlier.
-/

namespace CosUserspace

open Shinjuku

namespace ShinjukuLord

/-- The slice of the task is not used up, and the epistle does not call it IDLE. -/
structure Entitled (input : ScheduleInput) (task : Task UInt64) : Prop where
  slice : input.currentTime - task.lastShootTime < preemptTimeSlice
  hint : ∃ hint, input.epistle.get task.pid = .ok hint ∧ hint ≠ epistleThreadIdle

theorem Entitled.not_preemptable {input : ScheduleInput} {task : Task UInt64} (h : Entitled input task) :
    preemptable input task = .ok false := by
  obtain ⟨hint, hget, hidle⟩ := h.hint
  have hslice : ¬ input.currentTime - task.lastShootTime ≥ preemptTimeSlice := by
    rw [ge_iff_le, UInt64.not_le]
    exact h.slice
  rw [preemptable, if_neg hslice, hget]
  simp [Except.map, hidle]

/-- A message about another task, which on the same CPU only reports that cos has preempted it; or a round while `task` is entitled to its CPU. -/
def Undisturbed (cpu : Nat) (tid : UInt32) (task : Task UInt64) (l : ShinjukuLord) : Scheduler.Op ScheduleInput → Prop
  | .msg m => m.pid.toUInt32 ≠ tid ∧ ∀ other, l.aliveTasks m.pid.toUInt32 = some other → other.state = .onCpu →
      other.cpuId = cpu → MsgType.ofCode m.type = some .cosPreempt
  | .schedule input => input.answer.Clean ∧ Entitled input task

/-- `tid` is on `cpu`, with `task` as its record, and the record of `cpu` names it. -/
structure Running (cpuNum cpu : Nat) (tid : UInt32) (task : Task UInt64) (l : ShinjukuLord) : Prop where
  sound : l.Sound cpuNum
  alive : l.aliveTasks tid = some task
  named : l.cpuStates.cell cpu = ⟨.cos, tid⟩

namespace Running

variable {cpuNum cpu : Nat} {tid : UInt32} {task : Task UInt64} {l l' l₁ : ShinjukuLord} {r : Round Shinjuku.CpuState}
  {input : ScheduleInput}

/-- No round shoots onto the CPU of an entitled task. -/
theorem spared (h : Running cpuNum cpu tid task l) (hentitled : Entitled input task)
    (hassign : (shinjuku cpuNum).assign input l = .ok (l₁, r)) : cpu ∉ r.pairs.map Prod.fst := by
  intro hmem
  have hassigned := placed_of_assign cpuNum h.sound hassign
  obtain ⟨other, halive, -, hdisplaced⟩ := (hassigned.avail cpu hmem).displaces (by rw [h.named])
  rw [h.named] at halive
  obtain rfl := Option.some.inj (h.alive.symm.trans halive)
  rw [hentitled.not_preemptable] at hdisplaced
  cases hdisplaced

theorem schedule (h : Running cpuNum cpu tid task l) (honCpu : task.state = .onCpu) (hanswer : input.answer.Clean)
    (hentitled : Entitled input task) (hok : (shinjuku cpuNum).schedule input l = .ok l') :
    Running cpuNum cpu tid task l' := by
  obtain ⟨hsound, l₁, r, hassign, hshot⟩ := (shinjukuDiscipline cpuNum).shot h.sound hanswer hok
  exact ⟨hsound, hshot.stays h.alive honCpu, (hshot.otherCpu cpu (h.spared hentitled hassign)).trans h.named⟩

theorem handle (h : Running cpuNum cpu tid task l) {m : CosMsg} (hother : Undisturbed cpu tid task l (.msg m))
    (hok : l.handle m = .ok l') : Running cpuNum cpu tid task l' := by
  obtain ⟨hne, hleaves⟩ := hother
  rcases h.sound.handle_ok hok with ⟨-, rfl⟩ | ⟨kind, next, hkind, hnext, -, rfl⟩
  · exact h
  refine ⟨h.sound.handle hok, (Lord.aliveTasks_move_of_ne (Ne.symm hne)).trans h.alive, ?_⟩
  by_cases honCpu : ∃ other, l.aliveTasks m.pid.toUInt32 = some other ∧ other.state = .onCpu ∧ other.cpuId = cpu
  · obtain ⟨other, halive, hstate, hcpu⟩ := honCpu
    -- COS_PREEMPT leaves the record of the CPU as it is
    obtain rfl : kind = .cosPreempt := Option.some.inj (hkind.symm.trans (hleaves other halive hstate hcpu))
    exact (Lord.cpusAfter_cell_self .cosPreempt halive hstate hcpu).trans h.named
  · refine (h.sound.cpusAfter_cell_of_ne kind fun other halive hstate hcpu => ?_).trans h.named
    exact honCpu ⟨other, halive, hstate, hcpu⟩

theorem step (h : Running cpuNum cpu tid task l) (honCpu : task.state = .onCpu) {op : Scheduler.Op ScheduleInput}
    (hundisturbed : Undisturbed cpu tid task l op) (hok : (shinjuku cpuNum).perform op l = .ok l') :
    Running cpuNum cpu tid task l' := by
  cases op with
  | msg m => exact h.handle hundisturbed hok
  | schedule input => exact h.schedule honCpu hundisturbed.1 hundisturbed.2 hok

end Running

/-- **A task keeps its CPU for its slice**, along every run, unless a message disturbs it or its hint turns to IDLE. -/
theorem keeps_cpu_for_slice (cpuNum : Nat) (lordCpu : Int) (lordPid : UInt32)
    {before ops : List (Scheduler.Op ScheduleInput)}
    {l l' : ShinjukuLord} {cpu : Nat} {tid : UInt32} {task : Task UInt64}
    (hreach : Runs ((shinjuku cpuNum).Step (shinjuku cpuNum).Clean) (Lord.new cpuNum lordCpu lordPid) before l)
    (halive : l.aliveTasks tid = some task) (honCpu : task.state = .onCpu) (hnamed : l.cpuStates.cell cpu = ⟨.cos, tid⟩)
    (hrun : Runs ((shinjuku cpuNum).Step (Undisturbed cpu tid task)) l ops l') :
    l'.aliveTasks tid = some task ∧ l'.cpuStates.cell cpu = ⟨.cos, tid⟩ ∧
      ∀ input l₁ r, Entitled input task → (shinjuku cpuNum).assign input l' = .ok (l₁, r) →
        cpu ∉ r.pairs.map Prod.fst := by
  have hsound := (shinjukuDiscipline cpuNum).sound (fun _ _ h => h) hreach
  have hrunning : Running cpuNum cpu tid task l' :=
    hrun.invariant (P := Running cpuNum cpu tid task) ⟨hsound, halive, hnamed⟩
      fun _ _ _ h hstep => h.step honCpu hstep.1 hstep.2
  exact ⟨hrunning.alive, hrunning.named, fun _ _ _ hentitled hassign => hrunning.spared hentitled hassign⟩

/-- Task `10` is shot at `1000`; at `2000` task `11` waits, and CPU `3` is not taken from task `10`. -/
theorem keeps_cpu_for_slice_two :
    ∃ l l' : ShinjukuLord, Runs ((shinjuku 4).Step (shinjuku 4).Clean) (Lord.new 4 0 1)
        [.msg ⟨10, 3, 0⟩, .schedule ⟨1000, .init, ⟨0, ∅⟩⟩] l ∧
      Runs ((shinjuku 4).Step (Undisturbed 3 10 ⟨10, .onCpu, 3, 1000⟩)) l
        [.msg ⟨11, 3, 1⟩, .schedule ⟨2000, .init, ⟨0, ∅⟩⟩] l' ∧
      l'.rq = [11] ∧ l'.cpuStates.cell 3 = ⟨.cos, 10⟩ := by
  obtain ⟨l, hreach, halive, hnamed, l', hrun, hrq⟩ : ∃ l : ShinjukuLord,
      Runs ((shinjuku 4).Step (shinjuku 4).Clean) (Lord.new 4 0 1) [.msg ⟨10, 3, 0⟩, .schedule ⟨1000, .init, ⟨0, ∅⟩⟩] l ∧
      l.aliveTasks 10 = some ⟨10, .onCpu, 3, 1000⟩ ∧ l.cpuStates.cell 3 = ⟨.cos, 10⟩ ∧
      ∃ l' : ShinjukuLord, Runs ((shinjuku 4).Step (Undisturbed 3 10 ⟨10, .onCpu, 3, 1000⟩)) l
        [.msg ⟨11, 3, 1⟩, .schedule ⟨2000, .init, ⟨0, ∅⟩⟩] l' ∧ l'.rq = [11] := by
    refine ⟨_, .cons ⟨trivial, rfl⟩ (.cons ⟨fun _ => rfl, rfl⟩ .nil), rfl, rfl, _,
      .cons ⟨⟨by decide, by decide⟩, rfl⟩ (.cons ⟨⟨fun _ => rfl, by decide, 0, rfl, by decide⟩, rfl⟩ .nil), rfl⟩
  exact ⟨l, l', hreach, hrun, hrq, (keeps_cpu_for_slice 4 0 1 hreach halive rfl hnamed hrun).2.1⟩

end ShinjukuLord

end CosUserspace
