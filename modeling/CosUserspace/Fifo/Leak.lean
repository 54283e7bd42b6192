import CosUserspace.Fifo.Invariant

/-!
# CPUs that FifoLord loses

Every message that takes a task off its CPU should also take the mark off the CPU. BLOCKED, DEAD and PREEMPT do; RUNNABLE and COS_PREEMPT put the task back into the run queue and leave its CPU marked COS, and then no task holds it and `schedule` skips it for good. `cpus_held_iff` says that nothing else loses a CPU.
-/

namespace CosUserspace

namespace FifoLord

/-- Each CPU marked COS is held by exactly one task. -/
def NoLeak (cpuNum : Nat) (l : FifoLord) : Prop :=
  ∀ cpu < cpuNum, l.cpuStates.cell cpu = .cos →
    ∃! tid, ∃ task, l.aliveTasks tid = some task ∧ task.state = .onCpu ∧ task.cpuId = cpu

/-- The call is no RUNNABLE or COS_PREEMPT message about a task that is OnCpu. -/
def Releases (l : FifoLord) : Scheduler.Op ShootAnswer → Prop
  | .msg m =>
    MsgType.ofCode m.type = some .runnable ∨ MsgType.ofCode m.type = some .cosPreempt →
      l.status m.pid.toUInt32 ≠ some .onCpu
  | .schedule _ => True

variable {cpuNum : Nat} {lordCpu : Int} {l l' : FifoLord}

/-- Two tasks never hold one CPU, so a holder is enough. -/
theorem Inv.noLeak (hinv : Inv cpuNum lordCpu l)
    (hholder : ∀ cpu < cpuNum, l.cpuStates.cell cpu = .cos →
      ∃ tid task, l.aliveTasks tid = some task ∧ task.state = .onCpu ∧ task.cpuId = cpu) :
    l.NoLeak cpuNum := by
  intro cpu hlt hcos
  obtain ⟨tid, task, halive, honCpu, hcpu⟩ := hholder cpu hlt hcos
  refine ⟨tid, ⟨task, halive, honCpu, hcpu⟩, ?_⟩
  rintro tid' ⟨task', halive', honCpu', hcpu'⟩
  exact hinv.exclusive tid' tid task' task halive' halive honCpu' honCpu (hcpu'.trans hcpu.symm)

/-- A message that takes a task off its CPU and is not one of the two takes the mark off too. -/
theorem cpuWrite_ne_cos {kind : MsgType} {next : Option RunState}
    (hnext : Lifecycle.next kind (some .onCpu) = .ok next) (hrunnable : kind ≠ .runnable)
    (hcosPreempt : kind ≠ .cosPreempt) (state : Fifo.CpuState) : cpuWrite kind state ≠ .cos := by
  cases kind with
  | runnable => exact absurd rfl hrunnable
  | cosPreempt => exact absurd rfl hcosPreempt
  | new | newBlocked => simp [Lifecycle.next] at hnext
  | blocked | dead | preempt => simp [cpuWrite, CpuRecord.idle, CpuRecord.takenByCfs]

theorem NoLeak.handle (hinv : Inv cpuNum lordCpu l) (hleak : l.NoLeak cpuNum) {m : CosMsg}
    (hreleases : l.Releases (.msg m)) (hok : l.handle m = .ok l') : l'.NoLeak cpuNum := by
  apply (hinv.handle hok).noLeak
  intro cpu hlt hcos
  rcases hinv.sound.handle_ok hok with ⟨-, rfl⟩ | ⟨kind, next, hkind, hnext, -, rfl⟩
  · exact (hleak cpu hlt hcos).exists
  -- the CPU is not the one that the task of the message leaves
  have hne : ∀ task, l.aliveTasks m.pid.toUInt32 = some task → task.state = .onCpu → task.cpuId ≠ cpu := by
    intro task halive honCpu hcpu
    have hstatus : l.status m.pid.toUInt32 = some .onCpu := by rw [Lord.status_of_aliveTasks halive, honCpu]
    rw [hstatus] at hnext
    refine cpuWrite_ne_cos hnext ?_ ?_ _ ((Lord.cpusAfter_cell_self kind halive honCpu hcpu).symm.trans hcos)
    · exact fun hrunnable => hreleases (.inl (hrunnable ▸ hkind)) hstatus
    · exact fun hcosPreempt => hreleases (.inr (hcosPreempt ▸ hkind)) hstatus
  have hbefore := (hinv.sound.cpusAfter_cell_of_ne kind hne).symm.trans hcos
  obtain ⟨tid, task, halive, honCpu, hcpu⟩ := (hleak cpu hlt hbefore).exists
  have htid : tid ≠ m.pid.toUInt32 := fun heq => hne task (heq ▸ halive) honCpu hcpu
  exact ⟨tid, task, (Lord.aliveTasks_move_of_ne htid).trans halive, honCpu, hcpu⟩

theorem NoLeak.schedule (hinv : Inv cpuNum lordCpu l) (hleak : l.NoLeak cpuNum) {answer : ShootAnswer}
    (hanswer : answer.Success) (hok : (fifo cpuNum).schedule answer l = .ok l') : l'.NoLeak cpuNum := by
  apply (hinv.schedule hanswer.clean hok).noLeak
  intro cpu hlt hcos
  obtain ⟨-, _, r, -, hshot⟩ := (fifoDiscipline cpuNum).shot hinv.sound hanswer.clean hok
  by_cases hmem : cpu ∈ r.pairs.map Prod.fst
  · obtain ⟨⟨c, pid⟩, hpair, rfl⟩ := List.mem_map.mp hmem
    obtain ⟨task, halive, -⟩ := Lord.status_eq_some.mp (hshot.queued c pid hpair)
    exact ⟨pid, _, hshot.shotTask c pid hpair task halive, if_pos (hanswer.took c), rfl⟩
  · obtain ⟨tid, task, halive, honCpu, hcpu⟩ := (hleak cpu hlt ((hshot.otherCpu cpu hmem).symm.trans hcos)).exists
    exact ⟨tid, task, hshot.stays halive honCpu, honCpu, hcpu⟩

theorem leak_of_not_releases (hinv : Inv cpuNum lordCpu l) {m : CosMsg} (hreleases : ¬ l.Releases (.msg m))
    (hok : l.handle m = .ok l') : ¬ l'.NoLeak cpuNum := by
  rw [Releases, Classical.not_imp, not_not] at hreleases
  obtain ⟨htype, hstatus⟩ := hreleases
  obtain ⟨task, halive, honCpu⟩ := Lord.status_eq_some.mp hstatus
  obtain ⟨cpu, hcpu, hlt⟩ := hinv.sound.onCpu _ task halive honCpu
  have hcos := (hinv.held _ task cpu halive honCpu hcpu).2
  rcases hinv.sound.handle_ok hok with ⟨hnone, -⟩ | ⟨kind, next, hkind, hnext, -, rfl⟩
  · simp [hnone] at htype
  have hid : cpuWrite (κ := Fifo.CpuState) kind = id := by
    rcases htype with htype | htype
    all_goals
      obtain rfl := Option.some.inj (hkind.symm.trans htype)
      rfl
  have hafter := Lord.cpusAfter_cell_self kind halive honCpu hcpu
  rw [hid, id_eq, hcos] at hafter
  intro hleak
  obtain ⟨tid, task', halive', honCpu', hcpu'⟩ := (hleak cpu hlt hafter).exists
  obtain ⟨hne, hbefore⟩ := Lord.onCpu_of_move (Lifecycle.next_ne_onCpu hnext) halive' honCpu'
  exact hne (hinv.exclusive tid _ task' task hbefore halive honCpu' honCpu (hcpu'.trans hcpu.symm))

/-- **Along a run in which every shot succeeds no CPU is lost exactly when no RUNNABLE or COS_PREEMPT message arrives for a task that is OnCpu.** -/
theorem cpus_held_iff (cpuNum : Nat) (lordCpu : Int) (lordPid : UInt32) (ops : List (Scheduler.Op ShootAnswer)) :
    (∀ before (l : FifoLord), before <+: ops →
      Runs ((fifo cpuNum).Step (fifo cpuNum).Success) (Lord.new cpuNum lordCpu lordPid) before l →
      l.NoLeak cpuNum) ↔
    ∀ before op (l l' : FifoLord), before ++ [op] <+: ops →
      Runs ((fifo cpuNum).Step (fifo cpuNum).Success) (Lord.new cpuNum lordCpu lordPid) before l →
      (fifo cpuNum).Step (fifo cpuNum).Success l op l' → l.Releases op := by
  refine Runs.forall_prefix_iff (I := fun l => Inv cpuNum lordCpu l ∧ l.NoLeak cpuNum) ?_ (fun _ h => h.2) ?_ ?_
  · refine ⟨.new cpuNum lordCpu lordPid, fun cpu hlt hcos => ?_⟩
    simp [Lord.new, Buffer.fill_cell _ _ hlt, CpuRecord.idle] at hcos
  · rintro l op l' ⟨hinv, hleak⟩ ⟨hsuccess, hok⟩ hreleases
    refine ⟨hinv.step ⟨hsuccess.clean, hok⟩, ?_⟩
    cases op with
    | msg m => exact hleak.handle hinv hreleases hok
    | schedule answer => exact hleak.schedule hinv hsuccess hok
  · rintro l op l' ⟨hinv, -⟩ ⟨-, hok⟩ hleak
    cases op with
    | msg m =>
      by_contra hreleases
      exact leak_of_not_releases hinv hreleases hok hleak
    | schedule answer => trivial

/-- A RUNNABLE message about the task on CPU `1`: the CPU stays marked and nobody holds it. -/
theorem cpu_leaks :
    ∃ l : FifoLord, Runs ((fifo 2).Step (fifo 2).Success) (Lord.new 2 0 1)
        ([.msg ⟨10, 3, 1⟩, .schedule ⟨0, ∅⟩] ++ [.msg ⟨10, 1, 2⟩]) l ∧ ¬ l.NoLeak 2 := by
  obtain ⟨l, hl⟩ : ∃ l, (fifo 2).performAll [.msg ⟨10, 3, 1⟩, .schedule ⟨0, ∅⟩] (Lord.new 2 0 1) = .ok l := ⟨_, rfl⟩
  have hstatus : ((fifo 2).performAll [.msg ⟨10, 3, 1⟩, .schedule ⟨0, ∅⟩] (Lord.new 2 0 1)).map
      (·.status 10) = .ok (some .onCpu) := rfl
  rw [hl] at hstatus
  have hshot : Runs ((fifo 2).Step (fifo 2).Success) (Lord.new 2 0 1) [.msg ⟨10, 3, 1⟩, .schedule ⟨0, ∅⟩] l :=
    Scheduler.runs_of_performAll (by simp [Scheduler.Success, fifo, ShootAnswer.Success]) hl
  have hinv := inv_of_runs (hshot.mono fun _ _ _ hstep => ⟨hstep.1.clean, hstep.2⟩)
  obtain ⟨l', hl'⟩ : ∃ l', l.handle ⟨10, 1, 2⟩ = .ok l' := by
    obtain ⟨task, halive, -⟩ := Lord.status_eq_some.mp (Except.ok.inj hstatus)
    exact ⟨_, Lord.consumeMsgTaskRunnable_eq (m := ⟨10, 1, 2⟩) halive⟩
  refine ⟨l', hshot.snoc ⟨trivial, hl'⟩, leak_of_not_releases hinv (fun hreleases => ?_) hl'⟩
  exact hreleases (.inl rfl) (Except.ok.inj hstatus)

end FifoLord

end CosUserspace
