import CosUserspace.Fifo.Policy
import CosUserspace.Library.Queue

/-!
# Failed shots of FifoLord

A shot that fails should leave no trace. Its task does go back into the queue, but the record saved of its CPU is read after the CPU is marked, so the CPU stays COS with nobody on it; and the task goes to the end of the queue, behind the tasks that waited behind it. Both hold of every failed shot, so the conditions under which nothing goes wrong are exact.
-/

namespace CosUserspace

namespace FifoLord

variable {cpuNum : Nat} {lordCpu : Int} {l l' l₁ : FifoLord} {r : Round Fifo.CpuState} {answer : ShootAnswer}

/-- The shots that failed are undone, those that took are made, and nothing else has changed. -/
structure Undone (answer : ShootAnswer) (l l' : FifoLord) (shots : List (Nat × UInt32)) : Prop where
  failedCpu : ∀ cpu tid, (cpu, tid) ∈ shots → ¬ answer.Took cpu → l'.cpuStates.cell cpu = l.cpuStates.cell cpu
  failedTask : ∀ cpu tid, (cpu, tid) ∈ shots → ¬ answer.Took cpu →
    l'.status tid = some .queued ∧ l'.rq.count tid = 1
  tookCpu : ∀ cpu tid, (cpu, tid) ∈ shots → answer.Took cpu → l'.cpuStates.cell cpu = .cos
  tookTask : ∀ cpu tid, (cpu, tid) ∈ shots → answer.Took cpu →
    ∃ task, l'.aliveTasks tid = some task ∧ task.state = .onCpu ∧ task.cpuId = cpu
  otherTask : ∀ tid ∉ shots.map Prod.snd, l'.aliveTasks tid = l.aliveTasks tid
  otherCpu : ∀ cpu ∉ shots.map Prod.fst, l'.cpuStates.cell cpu = l.cpuStates.cell cpu

/-- The CPUs of the round that `schedule` makes. -/
theorem mem_cpus_iff (hinv : Inv cpuNum lordCpu l) (hassign : (fifo cpuNum).assign answer l = .ok (l₁, r)) (cpu : Nat) :
    cpu ∈ (l.free cpuNum).take l.waiting.length ↔ ∃ tid, (cpu, tid) ∈ r.pairs := by
  rw [← shots_cpus, ← (assign_eq_shots hinv hassign).1, List.mem_map]
  constructor
  · rintro ⟨⟨c, tid⟩, hpair, rfl⟩
    exact ⟨tid, hpair⟩
  · rintro ⟨tid, hpair⟩
    exact ⟨_, hpair, rfl⟩

/-- The records of the CPUs apart, a failed shot is undone. -/
theorem undone_of_failedCpu (hsound : l'.Sound cpuNum)
    (hshot : Shot () (fun _ => Fifo.CpuState.cos) (fun _ => .cos) (l.Avail cpuNum) answer l l' r)
    (hcpus : ∀ cpu tid, (cpu, tid) ∈ r.pairs → ¬ answer.Took cpu → l'.cpuStates.cell cpu = l.cpuStates.cell cpu) :
    Undone answer l l' r.pairs where
  failedCpu := hcpus
  failedTask cpu tid hpair hfailed := by
    obtain ⟨task, halive, -⟩ := Lord.status_eq_some.mp (hshot.queued cpu tid hpair)
    have hstatus := Lord.status_of_aliveTasks (hshot.shotTask cpu tid hpair task halive)
    rw [if_neg hfailed] at hstatus
    exact ⟨hstatus, List.count_eq_one_of_mem hsound.tracks.nodup ((hsound.tracks.mem_iff tid).mpr hstatus)⟩
  tookCpu cpu tid hpair _ := (hshot.shotCpu cpu tid hpair).trans (ite_self _)
  tookTask cpu tid hpair htook := by
    obtain ⟨task, halive, -⟩ := Lord.status_eq_some.mp (hshot.queued cpu tid hpair)
    exact ⟨_, hshot.shotTask cpu tid hpair task halive, if_pos htook, rfl⟩
  otherTask := hshot.otherTask
  otherCpu := hshot.otherCpu

/-- **A round is undone exactly when there is nothing to undo.** -/
theorem failed_shots_undone_iff {lordPid : UInt32} {ops : List (Scheduler.Op ShootAnswer)}
    (hrun : Runs ((fifo cpuNum).Step (fifo cpuNum).Clean) (Lord.new cpuNum lordCpu lordPid) ops l)
    (hanswer : answer.Clean) (hassign : (fifo cpuNum).assign answer l = .ok (l₁, r))
    (hok : (fifo cpuNum).schedule answer l = .ok l') :
    Undone answer l l' r.pairs ↔ ∀ cpu ∈ (l.free cpuNum).take l.waiting.length, answer.Took cpu := by
  have hinv := inv_of_runs hrun
  obtain ⟨hsound, l₂, r₂, hassign₂, hshot⟩ := (fifoDiscipline cpuNum).shot hinv.sound hanswer hok
  obtain ⟨rfl, rfl⟩ := Prod.mk.inj (Except.ok.inj (hassign.symm.trans hassign₂))
  constructor
  · intro hundone cpu hcpu
    obtain ⟨tid, hpair⟩ := (mem_cpus_iff hinv hassign cpu).mp hcpu
    by_contra hfailed
    -- the CPU was not COS, and now it is
    apply (hshot.avail cpu tid hpair).2.2
    rw [← hundone.failedCpu cpu tid hpair hfailed]
    exact (hshot.shotCpu cpu tid hpair).trans (ite_self _)
  · intro htook
    apply undone_of_failedCpu hsound hshot
    intro cpu tid hpair hfailed
    exact absurd (htook cpu ((mem_cpus_iff hinv hassign cpu).mpr ⟨tid, hpair⟩)) hfailed

/-- One task, one CPU, and every shot takes. -/
theorem failed_shots_undone_none :
    ∃ (l l' : FifoLord) (r : Round Fifo.CpuState),
      Runs ((fifo 2).Step (fifo 2).Clean) (Lord.new 2 0 1) [.msg ⟨10, 3, 1⟩] l ∧
      (fifo 2).schedule ⟨0, ∅⟩ l = .ok l' ∧ r.pairs = [(1, 10)] ∧ Undone ⟨0, ∅⟩ l l' r.pairs := by
  have hrun : Runs ((fifo 2).Step (fifo 2).Clean) (Lord.new 2 0 1) [.msg ⟨10, 3, 1⟩] _ := .cons ⟨trivial, rfl⟩ .nil
  exact ⟨_, _, _, hrun, rfl, rfl, (failed_shots_undone_iff hrun (fun _ => rfl) rfl rfl).mpr fun _ _ =>
    ShootAnswer.Success.took ⟨rfl, rfl⟩ _⟩

/-- `shoot_task` returns an error: CPU `1` was idle and is COS, with nobody on it. -/
theorem failed_shot_keeps_cpu :
    ∃ (l l' l₁ : FifoLord) (r : Round Fifo.CpuState),
      Runs ((fifo 2).Step (fifo 2).Clean) (Lord.new 2 0 1) [.msg ⟨10, 3, 1⟩] l ∧
      (fifo 2).assign ⟨1, ∅⟩ l = .ok (l₁, r) ∧ (fifo 2).schedule ⟨1, ∅⟩ l = .ok l' ∧ ¬ Undone ⟨1, ∅⟩ l l' r.pairs := by
  have hrun : Runs ((fifo 2).Step (fifo 2).Clean) (Lord.new 2 0 1) [.msg ⟨10, 3, 1⟩] _ := .cons ⟨trivial, rfl⟩ .nil
  refine ⟨_, _, _, _, hrun, rfl, rfl, fun hundone => ?_⟩
  have hcell := hundone.failedCpu 1 10 (by decide) (by decide)
  exact absurd hcell (by decide)

/-! ### The order of the queue -/

/-- The tasks of the failed shots, in queue order, go behind those that were not served. -/
theorem schedule_queue (hinv : Inv cpuNum lordCpu l) (hanswer : answer.Clean)
    (hok : (fifo cpuNum).schedule answer l = .ok l') :
    l'.rq = l.rq.drop (l.shots cpuNum).length ++
      ((l.shots cpuNum).filter fun shot => ¬ answer.Took shot.1).map Prod.snd := by
  obtain ⟨l₁, r, hassign, hplaced⟩ := assign_placed hinv.sound answer
  have hrq := (fifoDiscipline cpuNum).schedule_rq hinv.sound hassign hanswer hok
  have hfits := hplaced.fits fun cpu havail => havail.1
  obtain ⟨hpairs, hdrop⟩ := assign_eq_shots hinv hassign
  have hascending : (r.pairs.map Prod.fst).Pairwise (· < ·) := by
    rw [hpairs, shots_map_fst]
    exact (List.pairwise_lt_range.filter _).sublist (List.take_sublist ..)
  rw [hrq, hdrop, ← hpairs]
  exact congrArg _ (congrArg _ (hfits.failed_eq_filter hascending answer))

/-- The task of a failed shot waits behind every task that was not served. -/
theorem overtaken (hqueue : l'.rq = l.rq.drop (l.shots cpuNum).length ++
      ((l.shots cpuNum).filter fun shot => ¬ answer.Took shot.1).map Prod.snd) {cpu : Nat} {a b : UInt32}
    (hshot : (cpu, a) ∈ l.shots cpuNum) (hfailed : ¬ answer.Took cpu) (hb : b ∈ l.rq.drop (l.shots cpuNum).length) :
    [a, b].Sublist l.rq ∧ [b, a].Sublist l'.rq := by
  have ha : a ∈ l.rq.take (l.shots cpuNum).length := by
    rw [← shots_map_snd]
    exact List.mem_map.mpr ⟨_, hshot, rfl⟩
  have hback : a ∈ ((l.shots cpuNum).filter fun shot => ¬ answer.Took shot.1).map Prod.snd :=
    List.mem_map.mpr ⟨_, List.mem_filter.mpr ⟨hshot, by simpa using hfailed⟩, rfl⟩
  constructor
  · rw [← List.take_append_drop (l.shots cpuNum).length l.rq]
    exact (List.singleton_sublist.mpr ha).append (List.singleton_sublist.mpr hb)
  · rw [hqueue]
    exact (List.singleton_sublist.mpr hb).append (List.singleton_sublist.mpr hback)

/-- When no shot fails, or nobody was left unserved, nobody is overtaken. -/
theorem queue_sublist (hqueue : l'.rq = l.rq.drop (l.shots cpuNum).length ++
      ((l.shots cpuNum).filter fun shot => ¬ answer.Took shot.1).map Prod.snd)
    (hgood : (∀ cpu ∈ (l.shots cpuNum).map Prod.fst, answer.Took cpu) ∨ l.rq.length ≤ (l.shots cpuNum).length) :
    l'.rq.Sublist l.rq := by
  rw [hqueue]
  obtain htook | hall := hgood
  · have hnone : (l.shots cpuNum).filter (fun shot => ¬ answer.Took shot.1) = [] := by
      rw [List.filter_eq_nil_iff]
      intro shot hshot
      simpa using htook shot.1 (List.mem_map.mpr ⟨_, hshot, rfl⟩)
    rw [hnone, List.map_nil, List.append_nil]
    exact List.drop_sublist ..
  · rw [List.drop_eq_nil_of_le hall, List.nil_append]
    refine (List.filter_sublist.map Prod.snd).trans ?_
    rw [shots_map_snd]
    exact List.take_sublist ..

/-- **The order of the queue is kept exactly when every shot takes or the whole queue is served.** -/
theorem queue_order_kept_iff {lordPid : UInt32} {ops : List (Scheduler.Op ShootAnswer)}
    (hrun : Runs ((fifo cpuNum).Step (fifo cpuNum).Clean) (Lord.new cpuNum lordCpu lordPid) ops l)
    (hanswer : answer.Clean) (hok : (fifo cpuNum).schedule answer l = .ok l') :
    (∀ a b, [a, b].Sublist l.rq → a ∈ l'.rq → b ∈ l'.rq → [a, b].Sublist l'.rq) ↔
      (∀ cpu ∈ (l.free cpuNum).take l.waiting.length, answer.Took cpu) ∨
        l.rq.length ≤ min (l.free cpuNum).length l.waiting.length := by
  have hinv := inv_of_runs hrun
  have hnodup := hinv.sound.tracks.nodup
  have hnodup' := (hinv.schedule hanswer hok).sound.tracks.nodup
  have hqueue := schedule_queue hinv hanswer hok
  rw [← shots_cpus, ← length_shots]
  constructor
  · intro hkept
    by_contra hnone
    rw [not_or] at hnone
    obtain ⟨hfails, hmore⟩ := hnone
    push Not at hfails
    obtain ⟨cpu, hcpu, hfailed⟩ := hfails
    obtain ⟨⟨cpu, a⟩, hshot, rfl⟩ := List.mem_map.mp hcpu
    -- the shot of `a` failed, and `b` was not served
    obtain ⟨b, hb⟩ : ∃ b, b ∈ l.rq.drop (l.shots cpuNum).length := by
      apply List.exists_mem_of_ne_nil
      rw [ne_eq, List.drop_eq_nil_iff]
      exact hmore
    obtain ⟨hbefore, hafter⟩ := overtaken hqueue hshot hfailed hb
    have ha' : a ∈ l'.rq := hafter.subset (by simp)
    have hb' : b ∈ l'.rq := hafter.subset (by simp)
    exact not_ahead_of_ahead hnodup' hafter (hkept a b hbefore ha' hb')
  · intro hgood a b hahead ha hb
    exact ahead_of_sublist hnodup (queue_sublist hqueue hgood) hahead ha hb

/-- Two tasks on two CPUs: both shots fail, and the queue is as it was. -/
theorem queue_order_kept_two :
    ∃ l l' : FifoLord, Runs ((fifo 3).Step (fifo 3).Clean) (Lord.new 3 0 1) [.msg ⟨10, 3, 1⟩, .msg ⟨11, 3, 2⟩] l ∧
      (fifo 3).schedule ⟨1, ∅⟩ l = .ok l' ∧ l'.rq = [10, 11] ∧
      ∀ a b, [a, b].Sublist l.rq → a ∈ l'.rq → b ∈ l'.rq → [a, b].Sublist l'.rq := by
  have hrun : Runs ((fifo 3).Step (fifo 3).Clean) (Lord.new 3 0 1) [.msg ⟨10, 3, 1⟩, .msg ⟨11, 3, 2⟩] _ :=
    .cons ⟨trivial, rfl⟩ (.cons ⟨trivial, rfl⟩ .nil)
  have hanswer : ShootAnswer.Clean ⟨1, ∅⟩ := fun _ => rfl
  exact ⟨_, _, hrun, rfl, rfl, (queue_order_kept_iff hrun hanswer rfl).mpr (.inr (by decide))⟩

/-- Two tasks and one CPU: the shot of the first task fails, and the second one is ahead of it. -/
theorem failed_shot_overtaken :
    ∃ l l' : FifoLord, Runs ((fifo 2).Step (fifo 2).Clean) (Lord.new 2 0 1) [.msg ⟨10, 3, 1⟩, .msg ⟨11, 3, 2⟩] l ∧
      (fifo 2).schedule ⟨0, {1}⟩ l = .ok l' ∧
      ¬ ∀ a b, [a, b].Sublist l.rq → a ∈ l'.rq → b ∈ l'.rq → [a, b].Sublist l'.rq := by
  obtain ⟨l, l', hrun, hok, hrq, hrq'⟩ : ∃ l l' : FifoLord,
      Runs ((fifo 2).Step (fifo 2).Clean) (Lord.new 2 0 1) [.msg ⟨10, 3, 1⟩, .msg ⟨11, 3, 2⟩] l ∧
      (fifo 2).schedule ⟨0, {1}⟩ l = .ok l' ∧ l.rq = [10, 11] ∧ l'.rq = [11, 10] :=
    ⟨_, _, .cons ⟨trivial, rfl⟩ (.cons ⟨trivial, rfl⟩ .nil), rfl, rfl, rfl⟩
  refine ⟨l, l', hrun, hok, fun hkept => ?_⟩
  rw [hrq, hrq'] at hkept
  exact absurd (hkept 10 11 (.refl _) (by decide) (by decide)) (by decide)

end FifoLord

end CosUserspace
