import CosUserspace.Lord.Waiting
import CosUserspace.Shinjuku.Policy

/-!
# Waiting in ShinjukuLord

The CPUs that `schedule` sorts into its pools serve the tasks of the queue that the epistle does not call IDLE, and it passes the others back to the end. So a task that its epistle entry never calls IDLE is overtaken by nobody, however the messages, the clock and the hints of the others go.
-/

namespace CosUserspace

open Shinjuku

namespace ShinjukuLord

/-- How many CPUs `schedule` may shoot onto. -/
def found (cpuNum : Nat) (input : ScheduleInput) (l : ShinjukuLord) : Nat :=
  match classify input l (List.range' 3 (cpuNum - 3)) .empty with
  | .ok pools => pools.cpus.length
  | .error _ => 0

theorem assign_walk {cpuNum : Nat} {input : ScheduleInput} {l l₁ : ShinjukuLord} {r : Round Shinjuku.CpuState}
    (hsound : l.Sound cpuNum) (hzero : 0 ∉ l.rq) (hassign : assign cpuNum input l = .ok (l₁, r)) :
    r.pairs.map Prod.snd = (l.rq.filter (! idleBy input.epistle ·)).take (l.found cpuNum input) ∧
    l₁.rq = behind (! idleBy input.epistle ·) (l.found cpuNum input) l.rq ++
      (ahead (! idleBy input.epistle ·) (l.found cpuNum input) l.rq).filter (! ! idleBy input.epistle ·) := by
  cases hclassify : classify input l (List.range' 3 (cpuNum - 3)) .empty with
  | error stop => simp [assign, hclassify] at hassign
  | ok pools =>
    have hfound : l.found cpuNum input = pools.cpus.length := by simp only [found, hclassify]
    cases hloop : assignLoop input l.rq pools [] l .empty with
    | error stop => simp [assign, hclassify, hloop] at hassign
    | ok result =>
      obtain ⟨onqueueIdle, l₂, r₂⟩ := result
      simp only [assign, hclassify, hloop, Except.ok.injEq, Prod.mk.injEq] at hassign
      obtain ⟨rfl, rfl⟩ := hassign
      obtain ⟨hpairs, hrest, hpassed⟩ := assignLoop_eq_drain hzero hsound.keyed hloop
      rw [drain_eq hsound.tracks.nodup] at hpairs hrest hpassed
      have hidle : 0 ∉ onqueueIdle := by
        rw [hpassed]
        exact fun hmem => hzero (mem_of_mem_ahead (List.mem_of_mem_filter hmem))
      rw [hfound]
      constructor
      · rw [hpairs, Round.pairs_empty, List.nil_append]
        exact zip_map_snd _ _
      · rw [moveBack_eq _ hidle, hrest, hpassed, List.nil_append]

/-- The CPUs of the pools serve the tasks that are not idle by the epistle. -/
def firstCome (cpuNum : Nat) : (shinjuku cpuNum).FirstCome where
  servers := fun input (l : ShinjukuLord) => l.found cpuNum input
  active := fun input tid => ! idleBy input.epistle tid
  walk := fun hsound hzero hassign => assign_walk hsound hzero hassign

/-! ### When a round finds a CPU -/

section Found

variable {cpuNum cpu : Nat} {lordCpu : Int} {input : ScheduleInput} {l l' l₁ : ShinjukuLord}
  {r : Round Shinjuku.CpuState} {tid : UInt32} {last : UInt64}

/-- A CPU enters a pool unless its task may not be displaced. -/
theorem classify_held {cpus : List Nat} {pools pools' : Pools} (hok : classify input l cpus pools = .ok pools') :
    (∀ c ∈ pools.cpus, c ∈ pools'.cpus) ∧ ∀ c ∈ cpus, (c : Int) ≠ l.lordCpu → c ∉ pools'.cpus →
      ∃ task, (l.cpuStates.cell c).type = .cos ∧ l.aliveTasks (l.cpuStates.cell c).pid = some task ∧
        task.state = .onCpu ∧ preemptable input task = .ok false := by
  induction cpus generalizing pools with
  | nil =>
    obtain rfl := Except.ok.inj hok
    exact ⟨fun _ hmem => hmem, by simp⟩
  | cons cpu cpus ih =>
    rw [classify] at hok
    split at hok
    · rename_i hlord
      obtain ⟨hkeep, hheld⟩ := ih hok
      exact ⟨hkeep, List.forall_mem_cons.mpr ⟨fun hnot => absurd hlord hnot, hheld⟩⟩
    -- the CPU enters a pool
    have enter : ∀ {pools₁ : Pools}, pools₁.cpus.Perm (pools.cpus ++ [cpu]) → classify input l cpus pools₁ = .ok pools' →
        (∀ c ∈ pools.cpus, c ∈ pools'.cpus) ∧ ∀ c ∈ cpu :: cpus, (c : Int) ≠ l.lordCpu → c ∉ pools'.cpus →
          ∃ task, (l.cpuStates.cell c).type = .cos ∧ l.aliveTasks (l.cpuStates.cell c).pid = some task ∧
            task.state = .onCpu ∧ preemptable input task = .ok false := fun hone hrest => by
      obtain ⟨hkeep, hheld⟩ := ih hrest
      refine ⟨fun c hmem => hkeep c (hone.mem_iff.mpr (List.mem_append_left _ hmem)), ?_⟩
      have hentered := hkeep cpu (hone.mem_iff.mpr (List.mem_append_right _ List.mem_cons_self))
      exact List.forall_mem_cons.mpr ⟨fun _ hnot => absurd hentered hnot, hheld⟩
    cases hread : l.cpuStates.read cpu with
    | none => simp [hread] at hok
    | some state =>
      have hcell : l.cpuStates.cell cpu = state := (Buffer.read_eq_some.mp hread).2
      obtain ⟨type, pid⟩ := state
      simp only [hread] at hok
      cases type with
      | idle => exact enter (pools.cpus_perm_idle cpu) hok
      | cfs => exact enter (pools.cpus_perm_cfs cpu) hok
      | cos =>
        cases halive : l.aliveTasks pid with
        | none => simp [halive] at hok
        | some task =>
          simp only [halive] at hok
          split at hok
          · cases hok
          rename_i honCpu
          cases hpreempt : preemptable input task with
          | error stop => simp [hpreempt] at hok
          | ok displaced =>
            cases displaced with
            | true => exact enter (pools.cpus_perm_cos cpu) (by simpa [hpreempt] using hok)
            | false =>
              obtain ⟨hkeep, hheld⟩ := ih (by simpa [hpreempt] using hok)
              refine ⟨hkeep, List.forall_mem_cons.mpr ⟨fun _ _ => ⟨task, ?_, ?_, not_not.mp honCpu, hpreempt⟩, hheld⟩⟩
              · rw [hcell]
              · rw [hcell]
                exact halive

/-- If a round finds no CPU, each one has a task that may not be displaced. -/
theorem held_of_found_eq_zero (hfirst : 3 ≤ cpu) (hlt : cpu < cpuNum) (hlord : (cpu : Int) ≠ l.lordCpu)
    (hassign : assign cpuNum input l = .ok (l₁, r)) (hnone : l.found cpuNum input = 0) :
    ∃ task, (l.cpuStates.cell cpu).type = .cos ∧ l.aliveTasks (l.cpuStates.cell cpu).pid = some task ∧
      task.state = .onCpu ∧ preemptable input task = .ok false := by
  cases hclassify : classify input l (List.range' 3 (cpuNum - 3)) .empty with
  | error stop => simp [assign, hclassify] at hassign
  | ok pools =>
    simp only [found, hclassify, List.length_eq_zero_iff] at hnone
    have hmem : cpu ∈ List.range' 3 (cpuNum - 3) := List.mem_range'_1.mpr (by omega)
    exact (classify_held hclassify).2 cpu hmem hlord (by simp [hnone])

/-- If the record of `cpu` names a task that is OnCpu, this is `tid` since its shot at `last`. -/
structure Occupied (lordCpu : Int) (cpu : Nat) (tid : UInt32) (last : UInt64) (l : ShinjukuLord) : Prop where
  lordCpu_eq : l.lordCpu = lordCpu
  named : (l.cpuStates.cell cpu).type = .cos → (l.cpuStates.cell cpu).pid = tid
  since : ∀ task, l.aliveTasks tid = some task → task.state = .onCpu → task.lastShootTime = last

namespace Occupied

theorem handle (h : Occupied lordCpu cpu tid last l) (hsound : l.Sound cpuNum) {m : CosMsg} (hok : l.handle m = .ok l') :
    Occupied lordCpu cpu tid last l' := by
  rcases hsound.handle_ok hok with ⟨-, rfl⟩ | ⟨kind, next, -, hnext, -, rfl⟩
  · exact h
  refine ⟨h.lordCpu_eq, fun hcos => ?_, fun task halive honCpu => ?_⟩
  · change ((l.cpusAfter kind m.pid.toUInt32).cell cpu).type = .cos at hcos
    change ((l.cpusAfter kind m.pid.toUInt32).cell cpu).pid = tid
    by_cases hleaves : ∃ task, l.aliveTasks m.pid.toUInt32 = some task ∧ task.state = .onCpu ∧ task.cpuId = cpu
    · -- no message writes COS
      obtain ⟨task, halive, honCpu, hcpu⟩ := hleaves
      rw [Lord.cpusAfter_cell_self kind halive honCpu hcpu] at hcos ⊢
      cases kind with
      | runnable | new | newBlocked | cosPreempt => exact h.named hcos
      | blocked | dead | preempt => cases hcos
    · have hsame := hsound.cpusAfter_cell_of_ne kind fun task halive honCpu hcpu => hleaves ⟨task, halive, honCpu, hcpu⟩
      rw [hsame] at hcos ⊢
      exact h.named hcos
  · exact h.since task (Lord.onCpu_of_move (Lifecycle.next_ne_onCpu hnext) halive honCpu).2 honCpu

/-- A round that finds no CPU shoots nobody. -/
theorem schedule (h : Occupied lordCpu cpu tid last l) (hsound : l.Sound cpuNum) (hzero : 0 ∉ l.rq)
    (hanswer : input.answer.Success) (hnone : l.found cpuNum input = 0)
    (hok : (shinjuku cpuNum).schedule input l = .ok l') : Occupied lordCpu cpu tid last l' := by
  obtain ⟨-, l₁, r, hassign, hshot⟩ :=
    (shinjukuDiscipline cpuNum).shot hsound (ShootAnswer.Success.clean hanswer) hok
  have hpairs : r.pairs = [] := by
    have hserved := (assign_walk hsound hzero hassign).1
    rwa [hnone, List.take_zero, List.map_eq_nil_iff] at hserved
  refine ⟨hshot.lordCpu_eq.trans h.lordCpu_eq, ?_, ?_⟩
  · rw [hshot.otherCpu cpu (by simp [hpairs])]
    exact h.named
  · rw [hshot.otherTask tid (by simp [hpairs])]
    exact h.since

/-- Once the slice of the task is over, the round finds the CPU. -/
theorem found_pos (h : Occupied lordCpu cpu tid last l) (hfirst : 3 ≤ cpu) (hlt : cpu < cpuNum)
    (hlord : (cpu : Int) ≠ lordCpu) (hassign : assign cpuNum input l = .ok (l₁, r))
    (hslice : input.currentTime - last ≥ preemptTimeSlice) : 0 < l.found cpuNum input := by
  by_contra hnone
  obtain ⟨task, hcos, halive, honCpu, hheld⟩ :=
    held_of_found_eq_zero hfirst hlt (h.lordCpu_eq ▸ hlord) hassign (Nat.eq_zero_of_not_pos hnone)
  rw [h.named hcos] at halive
  rw [preemptable, h.since task halive honCpu, if_pos hslice] at hheld
  cases hheld

end Occupied

/-- A round that finds no CPU finds `cpu` occupied by a task. -/
theorem occupied_of_found_eq_zero (hfirst : 3 ≤ cpu) (hlt : cpu < cpuNum) (hlord : (cpu : Int) ≠ l.lordCpu)
    (hassign : assign cpuNum input l = .ok (l₁, r)) (hnone : l.found cpuNum input = 0) :
    ∃ tid task, l.aliveTasks tid = some task ∧ Occupied l.lordCpu cpu tid task.lastShootTime l := by
  obtain ⟨task, -, halive, -, -⟩ := held_of_found_eq_zero hfirst hlt hlord hassign hnone
  refine ⟨_, task, halive, rfl, fun _ => rfl, fun task' halive' _ => ?_⟩
  obtain rfl := Option.some.inj (halive.symm.trans halive')
  rfl

end Found

/-! ### Waiting -/

variable {ops : List (Scheduler.Op ScheduleInput)} {s : Serving UInt64 Shinjuku.CpuState}

/-- **Nobody overtakes a waiting task whose hint is not IDLE.** From any state with a sound queue, as long as the kernel takes every shot and no message blocks or ends the task: it is in the queue until it is shot, before it only as many shots are made as there were tasks ahead of it, and the round after as many that found a CPU shoots it. -/
theorem waits_at_most (cpuNum : Nat) (lordCpu : Int) (lordPid : UInt32) {before : List (Scheduler.Op ScheduleInput)}
    {l : ShinjukuLord}
    (hrun : Runs ((shinjuku cpuNum).Step (shinjuku cpuNum).Clean) (Lord.new cpuNum lordCpu lordPid) before l)
    (hzero : 0 ∉ l.rq) {tid : UInt32} (hmem : tid ∈ l.rq)
    (hserving : Runs (fun s op t => Serving.Step (firstCome cpuNum) s op t ∧ Serving.Patient (firstCome cpuNum) tid s op)
      (Serving.start l) ops s) :
    (tid ∉ s.shot → tid ∈ s.lord.rq ∧ s.shot.length + s.lord.rq.idxOf tid ≤ l.rq.idxOf tid) ∧
    (tid ∈ s.shot → s.shot.idxOf tid ≤ l.rq.idxOf tid) ∧
    (l.rq.idxOf tid < s.rounds → tid ∈ s.shot) := by
  have hsound := (shinjukuDiscipline cpuNum).sound (fun _ _ h => h) hrun
  have hwaiting := Serving.bounded_waiting (shinjukuDiscipline cpuNum) hsound hzero hmem hserving
  refine ⟨fun hlog => ⟨hwaiting.mem hlog, ?_⟩, hwaiting.served, hwaiting.mem_log⟩
  rw [Nat.add_comm]
  exact hwaiting.overtaken hlog

/-- CPU `3` goes to task `11`, since task `10` is idle by the epistle. -/
theorem waits_at_most_three :
    ∃ s, Runs ((shinjuku 4).Step (shinjuku 4).Clean) (Lord.new 4 0 1)
        [.msg ⟨10, 3, 0⟩, .msg ⟨11, 3, 0⟩, .msg ⟨12, 3, 0⟩] threeWaiting ∧
      Runs (fun s op t => Serving.Step (firstCome 4) s op t ∧ Serving.Patient (firstCome 4) 11 s op)
        (Serving.start threeWaiting) [.schedule firstIdle] s ∧
      s.shot = [11] ∧ s.shot.idxOf 11 ≤ threeWaiting.rq.idxOf 11 := by
  have hrun : Runs ((shinjuku 4).Step (shinjuku 4).Clean) (Lord.new 4 0 1)
      [.msg ⟨10, 3, 0⟩, .msg ⟨11, 3, 0⟩, .msg ⟨12, 3, 0⟩] threeWaiting :=
    .cons ⟨trivial, rfl⟩ (.cons ⟨trivial, rfl⟩ (.cons ⟨trivial, rfl⟩ .nil))
  have hserving : Runs (fun s op t => Serving.Step (firstCome 4) s op t ∧ Serving.Patient (firstCome 4) 11 s op)
      (Serving.start threeWaiting) [.schedule firstIdle] _ :=
    .cons ⟨.schedule ⟨rfl, rfl⟩ rfl rfl, fun _ => rfl⟩ .nil
  exact ⟨_, hrun, hserving, rfl, (waits_at_most 4 0 1 hrun (by decide) (by decide) hserving).2.1 (by decide)⟩

/-- **No task is shot more often than messages enqueue it**, whatever the epistle says; and when no message blocks or ends a Queued task, every task enqueued is shot once for it or waits. -/
theorem shot_once (cpuNum : Nat) (lordCpu : Int) (lordPid : UInt32)
    (hserving : Runs (Serving.Step (firstCome cpuNum)) (Serving.start (Lord.new cpuNum lordCpu lordPid)) ops s) :
    (s.shot ++ s.lord.rq).Subperm s.enqueued ∧
      (Runs (fun s op t => Serving.Step (firstCome cpuNum) s op t ∧ Serving.Stays s op)
        (Serving.start (Lord.new cpuNum lordCpu lordPid)) ops s → (s.shot ++ s.lord.rq).Perm s.enqueued) := by
  have hsound : (Lord.new cpuNum lordCpu lordPid : ShinjukuLord).Sound cpuNum := .new cpuNum lordCpu lordPid
  have hzero : 0 ∉ (Lord.new cpuNum lordCpu lordPid : ShinjukuLord).rq := by simp [Lord.new]
  exact ⟨Serving.served_once (shinjukuDiscipline cpuNum) hsound hzero hserving,
    fun hstays => Serving.served_all (shinjukuDiscipline cpuNum) hsound hzero hstays⟩

/-- Three tasks are announced, and CPU `3` takes one. -/
theorem shot_once_three :
    ∃ s, Runs (Serving.Step (firstCome 4)) (Serving.start (Lord.new 4 0 1))
        [.msg ⟨10, 3, 0⟩, .msg ⟨11, 3, 0⟩, .msg ⟨12, 3, 0⟩, .schedule firstIdle] s ∧
      s.shot = [11] ∧ s.lord.rq = [12, 10] ∧ (s.shot ++ s.lord.rq).Subperm s.enqueued := by
  have hserving : Runs (Serving.Step (firstCome 4)) (Serving.start (Lord.new 4 0 1))
      [.msg ⟨10, 3, 0⟩, .msg ⟨11, 3, 0⟩, .msg ⟨12, 3, 0⟩, .schedule firstIdle] _ :=
    .cons (.msg (by decide) rfl) (.cons (.msg (by decide) rfl) (.cons (.msg (by decide) rfl)
      (.cons (.schedule ⟨rfl, rfl⟩ rfl rfl) .nil)))
  exact ⟨_, hserving, rfl, rfl, (shot_once 4 0 1 hserving).1⟩

end ShinjukuLord

end CosUserspace
