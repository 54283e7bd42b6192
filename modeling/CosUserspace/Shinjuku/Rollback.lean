import CosUserspace.Shinjuku.Invariant

/-!
# Failed shots of ShinjukuLord

The record of a CPU is saved before the CPU is marked, and a task that is displaced keeps its own record until its message arrives. So a shot that fails leaves the CPU and the task on it as they were, on both paths of the rollback, and its task is back in the queue.
-/

namespace CosUserspace

open Shinjuku

namespace ShinjukuLord

variable {cpuNum : Nat} {lordCpu : Int} {l l' l₁ : ShinjukuLord} {r : Round Shinjuku.CpuState} {input : ScheduleInput}

/-- The old queue is the tasks that were shot and the new queue. -/
theorem queue_perm (hsound : l.Sound cpuNum) (hanswer : input.answer.Clean) (hassign : assign cpuNum input l = .ok (l₁, r))
    (hok : (shinjuku cpuNum).schedule input l = .ok l') :
    l.rq.Perm ((r.pairs.filter fun shot => input.answer.Took shot.1).map Prod.snd ++ l'.rq) := by
  have hplaced := placed_of_assign cpuNum hsound hassign
  have hfits : r.Fits cpuNum l₁ := hplaced.fits fun cpu havail => havail.lt
  have hrq := (shinjukuDiscipline cpuNum).schedule_rq hsound hassign hanswer hok
  have hfailed := (hfits.failed_perm input.answer).map Prod.snd
  have hparts : (r.pairs.map Prod.snd).Perm
      ((r.pairs.filter fun shot => input.answer.Took shot.1).map Prod.snd ++
        (r.pairs.filter fun shot => ¬ input.answer.Took shot.1).map Prod.snd) := by
    rw [← List.map_append]
    apply List.Perm.map
    simpa using (List.filter_append_perm (fun shot => decide (input.answer.Took shot.1)) r.pairs).symm
  rw [hrq]
  apply (hplaced.queue.trans (hparts.append_right _)).trans
  rw [List.append_assoc]
  exact (List.perm_append_comm.trans (hfailed.symm.append_left _)).append_left _

/-- **Every shot that did not take is undone.** -/
theorem failed_shots_leave_no_trace (hcpu : cpuNum ≤ shootAreaSize) (hinv : Inv cpuNum lordCpu l)
    (hempty : ∃ idx, (input.epistle.table idx).key = 0) (hanswer : input.answer.Clean) :
    ∃ l₁ r l', (shinjuku cpuNum).assign input l = .ok (l₁, r) ∧ (shinjuku cpuNum).schedule input l = .ok l' ∧
      (∀ cpu tid, (cpu, tid) ∈ r.pairs → ¬ input.answer.Took cpu →
        l'.cpuStates.cell cpu = l.cpuStates.cell cpu ∧ l'.status tid = some .queued ∧ l'.rq.count tid = 1 ∧
        ((l.cpuStates.cell cpu).type = .cos → ∃ task, l.aliveTasks (l.cpuStates.cell cpu).pid = some task ∧
          l'.aliveTasks (l'.cpuStates.cell cpu).pid = some task ∧ task.state = .onCpu ∧ task.cpuId = cpu)) ∧
      (∀ cpu tid, (cpu, tid) ∈ r.pairs → input.answer.Took cpu → l'.cpuStates.cell cpu = ⟨.cos, tid⟩ ∧
        ∃ task, l'.aliveTasks tid = some task ∧ task.state = .onCpu ∧ task.cpuId = cpu) ∧
      l.rq.Perm ((r.pairs.filter fun shot => input.answer.Took shot.1).map Prod.snd ++ l'.rq) ∧
      (∀ tid ∉ r.pairs.map Prod.snd, l'.aliveTasks tid = l.aliveTasks tid) ∧
      (∀ cpu ∉ r.pairs.map Prod.fst, l'.cpuStates.cell cpu = l.cpuStates.cell cpu) := by
  obtain ⟨l', hok⟩ := hinv.schedule_returns hcpu hanswer hempty
  obtain ⟨hsound, l₁, r, hassign, hshot⟩ := (shinjukuDiscipline cpuNum).shot hinv.sound hanswer hok
  refine ⟨l₁, r, l', hassign, hok, ?_, ?_, queue_perm hinv.sound hanswer hassign hok, hshot.otherTask, hshot.otherCpu⟩
  · intro cpu tid hpair hfailed
    obtain ⟨task, halive, -⟩ := Lord.status_eq_some.mp (hshot.queued cpu tid hpair)
    have hcell : l'.cpuStates.cell cpu = l.cpuStates.cell cpu := (hshot.shotCpu cpu tid hpair).trans (if_neg hfailed)
    have hstatus : l'.status tid = some .queued := by
      rw [Lord.status_of_aliveTasks (hshot.shotTask cpu tid hpair task halive)]
      exact congrArg some (if_neg hfailed)
    have hcount := List.count_eq_one_of_mem hsound.tracks.nodup ((hsound.tracks.mem_iff tid).mpr hstatus)
    refine ⟨hcell, hstatus, hcount, fun hcos => ?_⟩
    -- the task on the CPU was OnCpu, and such a task is not shot
    obtain ⟨-, -, -, owner, howner, honCpu, hcpuId⟩ := hinv.owned cpu (hshot.avail cpu tid hpair).lt hcos
    rw [hcell]
    exact ⟨owner, howner, hshot.stays howner honCpu, honCpu, hcpuId⟩
  · intro cpu tid hpair htook
    obtain ⟨task, halive, -⟩ := Lord.status_eq_some.mp (hshot.queued cpu tid hpair)
    exact ⟨(hshot.shotCpu cpu tid hpair).trans (if_pos htook), _, hshot.shotTask cpu tid hpair task halive,
      if_pos htook, rfl⟩

/-- A task is on CPU `3` beyond its slice, and the shot that would displace it fails. -/
theorem failed_shots_leave_no_trace_displaced :
    ∃ l l' : ShinjukuLord, Runs ((shinjuku 4).Step Guarded) (Lord.new 4 0 1)
        [.msg ⟨10, 3, 1⟩, .schedule ⟨1000, .init, ⟨0, ∅⟩⟩, .msg ⟨11, 3, 2⟩] l ∧
      (shinjuku 4).schedule ⟨401000, .init, ⟨0, {3}⟩⟩ l = .ok l' ∧
      l'.cpuStates.cell 3 = l.cpuStates.cell 3 ∧ l'.rq.count 11 = 1 := by
  obtain ⟨l, hrun, hpairs⟩ : ∃ l : ShinjukuLord, Runs ((shinjuku 4).Step Guarded) (Lord.new 4 0 1)
      [.msg ⟨10, 3, 1⟩, .schedule ⟨1000, .init, ⟨0, ∅⟩⟩, .msg ⟨11, 3, 2⟩] l ∧
      ((shinjuku 4).assign ⟨401000, .init, ⟨0, {3}⟩⟩ l).map (·.2.pairs) = .ok [(3, 11)] :=
    ⟨_, .cons ⟨⟨by decide, by decide⟩, rfl⟩ (.cons ⟨fun _ => rfl, rfl⟩ (.cons ⟨⟨by decide, by decide⟩, rfl⟩ .nil)), rfl⟩
  have hanswer : (⟨401000, .init, ⟨0, {3}⟩⟩ : ScheduleInput).answer.Clean := fun herr => absurd rfl herr
  obtain ⟨l₁, r, l', hassign, hok, hfailed, -⟩ :=
    failed_shots_leave_no_trace (by decide) (inv_of_runs hrun) ⟨⟨0, by decide⟩, rfl⟩ hanswer
  rw [hassign] at hpairs
  have hall : r.pairs = [(3, 11)] := Except.ok.inj hpairs
  have hpair : (3, 11) ∈ r.pairs := by
    rw [hall]
    exact List.mem_singleton_self _
  obtain ⟨hcell, -, hcount, -⟩ := hfailed 3 11 hpair (by decide)
  exact ⟨l, l', hrun, hok, hcell, hcount⟩

end ShinjukuLord

end CosUserspace
