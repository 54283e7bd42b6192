import CosUserspace.Shinjuku.Asserts

/-!
# No thread is lost

What the kernel last said about a thread decides where the lord has it. A thread that may run is either once in the queue or on one CPU with one shot whose departure is still to come; every other thread is nowhere.
-/

namespace CosUserspace

open Shinjuku

namespace Ledger

variable {cpuNum : Nat} {s : Ledger} {tid : UInt32}

/-- The thread may run, by its latest message. -/
def Ready (s : Ledger) (tid : UInt32) : Prop :=
  s.latest tid = some .new ∨ s.latest tid = some .runnable ∨ s.latest tid = some .preempt ∨
    s.latest tid = some .cosPreempt

/-- It waits in the queue. -/
structure Waits (s : Ledger) (tid : UInt32) : Prop where
  once : s.lord.rq.count tid = 1
  nowhere : ∀ cpu, tid ∉ s.pending cpu

/-- It is on `cpu`. -/
structure RunsOn (cpuNum : Nat) (s : Ledger) (tid : UInt32) (cpu : Nat) : Prop where
  not_waiting : tid ∉ s.lord.rq
  exists_cpu : cpu < cpuNum
  once : (s.pending cpu).count tid = 1
  nowhere_else : ∀ c ≠ cpu, tid ∉ s.pending c

/-- The lord neither queues it nor has it on a CPU. -/
structure Absent (s : Ledger) (tid : UInt32) : Prop where
  not_waiting : tid ∉ s.lord.rq
  nowhere : ∀ cpu, tid ∉ s.pending cpu

/-- The thread may run exactly if the lord has it queued or on a CPU. -/
theorem ready_iff_of_agrees (hagrees : Agrees (s.latest tid) (s.lord.status tid)) :
    s.Ready tid ↔ s.lord.status tid = some .queued ∨ s.lord.status tid = some .onCpu := by
  unfold Ready
  rcases hlatest : s.latest tid with _ | kind
  · rw [hlatest] at hagrees
    have hnone : s.lord.status tid = none := hagrees
    simp [hnone]
  · rw [hlatest] at hagrees
    cases kind with
    | new | runnable | preempt | cosPreempt => exact iff_of_true (by simp) hagrees
    | blocked | newBlocked =>
      have hblocked : s.lord.status tid = some .blocked := hagrees
      simp [hblocked]
    | dead =>
      have hnone : s.lord.status tid = none := hagrees
      simp [hnone]

namespace Inv

theorem not_pending (hinv : Inv cpuNum s) (hstate : s.lord.status tid ≠ some .onCpu) (cpu : Nat) :
    tid ∉ s.pending cpu := fun hmem => hstate (hinv.status_of_pending hmem)

theorem waits (hinv : Inv cpuNum s) (hqueued : s.lord.status tid = some .queued) : s.Waits tid where
  once := List.count_eq_one_of_mem hinv.placed.sound.tracks.nodup ((hinv.placed.sound.tracks.mem_iff tid).mpr hqueued)
  nowhere := hinv.not_pending (by simp [hqueued])

theorem runsOn (hinv : Inv cpuNum s) (honCpu : s.lord.status tid = some .onCpu) : ∃ cpu, RunsOn cpuNum s tid cpu := by
  obtain ⟨task, halive, hstate⟩ := Lord.status_eq_some.mp honCpu
  obtain ⟨cpu, hcpu, hlt⟩ := hinv.placed.sound.onCpu tid task halive hstate
  have hmem := (hinv.placed.mem_iff cpu tid).mpr ⟨task, halive, hstate, hcpu⟩
  refine ⟨cpu, ?_, hlt, List.count_eq_one_of_mem (hinv.placed.nodup cpu) hmem, ?_⟩
  · rw [hinv.placed.sound.tracks.mem_iff, honCpu]
    simp
  · exact fun c hc hmem' => hc (hinv.placed.cpu_unique hmem hmem')

theorem absent (hinv : Inv cpuNum s) (hqueued : s.lord.status tid ≠ some .queued)
    (honCpu : s.lord.status tid ≠ some .onCpu) : s.Absent tid where
  not_waiting := mt (hinv.placed.sound.tracks.mem_iff tid).mp hqueued
  nowhere := hinv.not_pending honCpu

end Inv

/-- **No thread is lost and none is run twice**: after every run, a thread that may run is once in the queue and on no CPU, or it is on exactly one CPU, with one shot to come back, and not in the queue; any other thread is in neither place. -/
theorem no_thread_lost (cpuNum : Nat) (lordCpu : Int) (lordPid : UInt32) {ops : List (Scheduler.Op ScheduleInput)}
    {s : Ledger} (hrun : Runs (Step cpuNum) (Ledger.init cpuNum lordCpu lordPid) ops s) (tid : UInt32) :
    (s.Ready tid → s.Waits tid ∨ ∃ cpu, RunsOn cpuNum s tid cpu) ∧ (¬ s.Ready tid → s.Absent tid) := by
  have hinv := inv_of_runs hrun
  have hready := ready_iff_of_agrees (hinv.agrees tid)
  constructor
  · intro h
    exact (hready.mp h).imp hinv.waits hinv.runsOn
  · intro h
    rw [hready, not_or] at h
    exact hinv.absent h.1 h.2

/-- Task `11` has displaced task `10` on CPU `3` and been displaced by task `12`; all three are still there. -/
theorem no_thread_lost_displaced :
    ∃ s, Runs (Step 4) (Ledger.init 4 0 1) threeShots s ∧ ∃ cpu, RunsOn 4 s 11 cpu := by
  obtain ⟨s, hrun, hpending, -⟩ := threeShots_run
  have hmem : (11 : UInt32) ∈ s.pending 3 := by
    rw [hpending]
    decide
  have hthread := no_thread_lost 4 0 1 hrun 11
  by_cases hready : s.Ready 11
  · exact ⟨s, hrun, (hthread.1 hready).resolve_left fun hwaits => hwaits.nowhere 3 hmem⟩
  · exact absurd hmem ((hthread.2 hready).nowhere 3)

end Ledger

end CosUserspace
