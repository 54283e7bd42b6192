import CosUserspace.Fifo.Policy
import CosUserspace.Lord.Waiting

/-!
# Waiting in FifoLord

`FifoLord` passes nobody over: a CPU that is not COS serves the first task of the queue. So its tasks are shot in the order in which they were enqueued, and a task that nothing takes out of the queue waits for at most as many rounds with a free CPU as there were tasks ahead of it.
-/

namespace CosUserspace

namespace FifoLord

theorem waitedOn {cpuNum : Nat} {answer : ShootAnswer} {l l₁ : FifoLord} {r : Round Fifo.CpuState}
    (hsound : l.Sound cpuNum) (hzero : 0 ∉ l.rq) (hassign : (fifo cpuNum).assign answer l = .ok (l₁, r)) :
    r.pairs.map Prod.snd = l.rq.take (l.free cpuNum).length ∧ l₁.rq = l.rq.drop (l.free cpuNum).length := by
  have hloop := assignLoop_eq List.nodup_range hsound.keyed hassign
  rw [Round.pairs_empty, List.nil_append] at hloop
  have hpairs : r.pairs = l.shots cpuNum := hloop.1
  have hqueue : l₁.rq = l.rq.drop (l.shots cpuNum).length := hloop.2
  have hlength := length_shots cpuNum l
  rw [waiting_of_zero_notMem hzero] at hlength
  rw [hpairs, hqueue, shots_map_snd, hlength]
  refine ⟨List.take_eq_take_min.symm, ?_⟩
  rcases Nat.le_total (l.free cpuNum).length l.rq.length with hle | hle
  · rw [Nat.min_eq_left hle]
  · rw [Nat.min_eq_right hle, List.drop_length, List.drop_eq_nil_of_le hle]

/-- The free CPUs serve the queue. -/
def firstCome (cpuNum : Nat) : (fifo cpuNum).FirstCome where
  servers := fun _ (l : FifoLord) => (l.free cpuNum).length
  active := fun _ _ => true
  walk := by
    intro answer l l₁ r hsound hzero hassign
    obtain ⟨hpairs, hqueue⟩ := waitedOn hsound hzero hassign
    have hfilter : l.rq.filter (fun _ => true) = l.rq := List.filter_eq_self.mpr fun _ _ => rfl
    have himpartial : ∀ tid : UInt32, (fun _ => true) tid = true := fun _ => rfl
    have hwalk := Service.behind_of_impartial himpartial hsound.tracks.nodup (free cpuNum l).length
    rw [hfilter] at hwalk
    refine ⟨hpairs.trans ?_, hqueue.trans ?_⟩
    · rw [hfilter]
      rfl
    · exact (List.append_cancel_left (hwalk.trans (List.take_append_drop ..).symm)).symm

variable {cpuNum : Nat} {lordCpu : Int} {lordPid : UInt32} {l : FifoLord} {ops : List (Scheduler.Op ShootAnswer)}
  {s : Serving Unit Fifo.CpuState}

/-- **Nobody overtakes a waiting task.** From any reachable state, as long as the kernel takes every shot and no message blocks or ends the task: it is in the queue until it is shot, before it only as many shots are made as there were tasks ahead of it, and the round after as many rounds with a free CPU shoots it. -/
theorem waits_in_turn (cpuNum : Nat) (lordCpu : Int) (lordPid : UInt32) {before : List (Scheduler.Op ShootAnswer)}
    (hrun : Runs ((fifo cpuNum).Step (fifo cpuNum).Clean) (Lord.new cpuNum lordCpu lordPid) before l)
    (hzero : 0 ∉ l.rq) {tid : UInt32} (hmem : tid ∈ l.rq)
    (hserving : Runs (fun s op t => Serving.Step (firstCome cpuNum) s op t ∧ Serving.Patient (firstCome cpuNum) tid s op)
      (Serving.start l) ops s) :
    (tid ∉ s.shot → tid ∈ s.lord.rq ∧ s.shot.length + s.lord.rq.idxOf tid ≤ l.rq.idxOf tid) ∧
    (tid ∈ s.shot → s.shot.idxOf tid ≤ l.rq.idxOf tid) ∧
    (l.rq.idxOf tid < s.rounds → tid ∈ s.shot) := by
  have hwaiting := Serving.bounded_waiting (fifoDiscipline cpuNum) (inv_of_runs hrun).sound hzero hmem hserving
  refine ⟨fun hlog => ⟨hwaiting.mem hlog, ?_⟩, hwaiting.served, hwaiting.mem_log⟩
  rw [Nat.add_comm]
  exact hwaiting.overtaken hlog

/-- Two tasks wait, and CPU `1` is free. -/
def twoQueued : FifoLord :=
  { (Lord.new 2 0 1 : FifoLord) with
    rq := [10, 11]
    aliveTasks := Function.update (Function.update (fun _ => none) 10 (some ⟨10, .queued, -1, ()⟩))
      11 (some ⟨11, .queued, -1, ()⟩) }

/-- The second task is shot in the first round after the first one has ended. -/
theorem waits_in_turn_two :
    ∃ s, Runs ((fifo 2).Step (fifo 2).Clean) (Lord.new 2 0 1) [.msg ⟨10, 3, 1⟩, .msg ⟨11, 3, 2⟩] twoQueued ∧
      Runs (fun s op t => Serving.Step (firstCome 2) s op t ∧ Serving.Patient (firstCome 2) 11 s op)
        (Serving.start twoQueued) [.schedule ⟨0, ∅⟩, .msg ⟨10, 4, 3⟩, .schedule ⟨0, ∅⟩] s ∧
      s.rounds = 2 ∧ 11 ∈ s.shot := by
  have hrun : Runs ((fifo 2).Step (fifo 2).Clean) (Lord.new 2 0 1) [.msg ⟨10, 3, 1⟩, .msg ⟨11, 3, 2⟩] twoQueued :=
    .cons ⟨trivial, rfl⟩ (.cons ⟨trivial, rfl⟩ .nil)
  have hsuccess : ShootAnswer.Success ⟨0, ∅⟩ := ⟨rfl, rfl⟩
  have hserving : Runs (fun s op t => Serving.Step (firstCome 2) s op t ∧ Serving.Patient (firstCome 2) 11 s op)
      (Serving.start twoQueued) [.schedule ⟨0, ∅⟩, .msg ⟨10, 4, 3⟩, .schedule ⟨0, ∅⟩] _ :=
    .cons ⟨.schedule hsuccess rfl rfl, fun _ => rfl⟩ (.cons ⟨.msg (by decide) rfl, fun _ h => absurd h (by decide)⟩
      (.cons ⟨.schedule hsuccess rfl rfl, fun _ => rfl⟩ .nil))
  exact ⟨_, hrun, hserving, rfl, (waits_in_turn 2 0 1 hrun (by decide) (by decide) hserving).2.2 (by decide)⟩

/-- **The tasks are shot in the order in which messages enqueue them**, as long as the kernel takes every shot; when no message blocks or ends a Queued task, those shot and those that wait are all that were enqueued. -/
theorem shot_in_order (cpuNum : Nat) (lordCpu : Int) (lordPid : UInt32)
    (hserving : Runs (Serving.Step (firstCome cpuNum)) (Serving.start (Lord.new cpuNum lordCpu lordPid)) ops s) :
    (s.shot ++ s.lord.rq).Sublist s.enqueued ∧
      (Runs (fun s op t => Serving.Step (firstCome cpuNum) s op t ∧ Serving.Stays s op)
        (Serving.start (Lord.new cpuNum lordCpu lordPid)) ops s → s.shot ++ s.lord.rq = s.enqueued) := by
  have hsound : (Lord.new cpuNum lordCpu lordPid : FifoLord).Sound cpuNum := .new cpuNum lordCpu lordPid
  have hzero : 0 ∉ (Lord.new cpuNum lordCpu lordPid : FifoLord).rq := by simp [Lord.new]
  have hsub : (s.shot ++ s.lord.rq).Sublist s.enqueued :=
    Serving.served_in_order (fifoDiscipline cpuNum) (fun _ _ => rfl) hsound hzero hserving
  refine ⟨hsub, fun hstays => hsub.eq_of_length ?_⟩
  have hperm : (s.shot ++ s.lord.rq).Perm s.enqueued :=
    Serving.served_all (fifoDiscipline cpuNum) hsound hzero hstays
  exact hperm.length_eq

/-- Two tasks are announced, and CPU `1` takes the first. -/
theorem shot_in_order_two :
    ∃ s, Runs (Serving.Step (firstCome 2)) (Serving.start (Lord.new 2 0 1))
        [.msg ⟨10, 3, 1⟩, .msg ⟨11, 3, 2⟩, .schedule ⟨0, ∅⟩] s ∧
      s.shot = [10] ∧ s.lord.rq = [11] ∧ (s.shot ++ s.lord.rq).Sublist s.enqueued := by
  have hserving : Runs (Serving.Step (firstCome 2)) (Serving.start (Lord.new 2 0 1))
      [.msg ⟨10, 3, 1⟩, .msg ⟨11, 3, 2⟩, .schedule ⟨0, ∅⟩] _ :=
    .cons (.msg (by decide) rfl) (.cons (.msg (by decide) rfl) (.cons (.schedule ⟨rfl, rfl⟩ rfl rfl) .nil))
  exact ⟨_, hserving, rfl, rfl, (shot_in_order 2 0 1 hserving).1⟩

end FifoLord

end CosUserspace
