import CosUserspace.Fifo.Invariant
import Mathlib.Data.List.TakeWhile

/-!
# The policy of FifoLord

`schedule` pairs the queued tasks with the free CPUs, both in their order, until one of them runs out. A task id `0` in the queue looks to `peek` like its end.
-/

namespace CosUserspace

namespace FifoLord

def isFree (l : FifoLord) (cpu : Nat) : Bool := (cpu : Int) ≠ l.lordCpu ∧ l.cpuStates.cell cpu ≠ .cos

/-- The CPUs other than the lord's that are not COS, in ascending order. -/
def free (cpuNum : Nat) (l : FifoLord) : List Nat := (List.range cpuNum).filter l.isFree

/-- The queue as far as `peek` sees it. -/
def waiting (l : FifoLord) : RunQueue := l.rq.takeWhile (· ≠ 0)

/-- The CPU and the task of each shot that `schedule` makes. -/
def shots (cpuNum : Nat) (l : FifoLord) : List (Nat × UInt32) := (l.free cpuNum).zip l.waiting

variable {cpuNum : Nat} {lordCpu : Int} {l l' l₁ : FifoLord} {r r' : Round Fifo.CpuState} {answer : ShootAnswer}

theorem length_shots (cpuNum : Nat) (l : FifoLord) :
    (l.shots cpuNum).length = min (l.free cpuNum).length l.waiting.length :=
  List.length_zip

theorem shots_map_fst (cpuNum : Nat) (l : FifoLord) :
    (l.shots cpuNum).map Prod.fst = (l.free cpuNum).take (l.shots cpuNum).length := by
  have hle : (l.shots cpuNum).length ≤ l.waiting.length := by
    rw [length_shots]
    exact Nat.min_le_right ..
  rw [length_shots, shots, List.zip_eq_zip_take_min, ← length_shots]
  apply List.map_fst_zip
  rw [List.length_take, List.length_take]
  omega

/-- The CPUs that the round of `schedule` shoots onto. -/
theorem shots_cpus (cpuNum : Nat) (l : FifoLord) :
    (l.shots cpuNum).map Prod.fst = (l.free cpuNum).take l.waiting.length := by
  rw [shots_map_fst, length_shots, Nat.min_comm, ← List.take_eq_take_min]

theorem shots_map_snd (cpuNum : Nat) (l : FifoLord) :
    (l.shots cpuNum).map Prod.snd = l.rq.take (l.shots cpuNum).length := by
  have hle : (l.shots cpuNum).length ≤ (l.free cpuNum).length := by
    rw [length_shots]
    exact Nat.min_le_left ..
  have hle' : (l.shots cpuNum).length ≤ l.waiting.length := by
    rw [length_shots]
    exact Nat.min_le_right ..
  have htake : l.rq.take (l.shots cpuNum).length = l.waiting.take (l.shots cpuNum).length := by
    obtain ⟨rest, hrest⟩ := List.takeWhile_prefix (· ≠ 0) (l := l.rq)
    rw [← hrest]
    exact List.take_append_of_le_length hle'
  rw [htake, length_shots, shots, List.zip_eq_zip_take_min, ← length_shots]
  apply List.map_snd_zip
  rw [List.length_take, List.length_take]
  omega

theorem waiting_of_peek_eq_zero (hpeek : l.rq.peek.toInt32 = 0) : l.waiting = [] := by
  unfold waiting
  cases hrq : l.rq with
  | nil => rfl
  | cons head rest =>
    have hhead : head = 0 := by
      rw [hrq] at hpeek
      rw [← UInt32.toUInt32_toInt32 head]
      exact congrArg Int32.toUInt32 hpeek
    simp [hhead]

theorem waiting_of_peek_ne_zero (hqueue : l.rq = l.rq.peek :: l.rq.dequeue) (hzero : l.rq.peek ≠ 0) :
    l.waiting = l.rq.peek :: l.rq.dequeue.takeWhile (· ≠ 0) := by
  rw [waiting, hqueue, List.takeWhile_cons_of_pos (by simpa using hzero)]
  rfl

theorem waiting_of_zero_notMem (hzero : 0 ∉ l.rq) : l.waiting = l.rq := by
  apply List.takeWhile_eq_self_iff.mpr
  intro tid htid
  have hne : tid ≠ 0 := fun heq => hzero (heq ▸ htid)
  simpa using hne

/-- A shot onto one CPU changes nothing for the others. -/
theorem filter_isFree_shoot {cpus : List Nat} {cpu : Nat} (hnew : cpu ∉ cpus) (aliveTasks : UInt32 → Option (Task Unit))
    (rq : RunQueue) :
    cpus.filter (isFree { l with aliveTasks, cpuStates := l.cpuStates.set cpu .cos, rq }) = cpus.filter l.isFree := by
  apply List.filter_congr
  intro c hc
  have hne : c ≠ cpu := fun heq => hnew (heq ▸ hc)
  simp only [isFree, Buffer.set_cell_of_ne _ hne]

/-- The loop shoots the waiting tasks onto the free CPUs ahead. -/
theorem assignLoop_eq {cpus : List Nat} (hnodup : cpus.Nodup)
    (hkeyed : ∀ tid task, l.aliveTasks tid = some task → task.pid.toUInt32 = tid)
    (hok : assignLoop cpus l r = .ok (l', r')) :
    r'.pairs = r.pairs ++ (cpus.filter l.isFree).zip l.waiting ∧
      l'.rq = l.rq.drop ((cpus.filter l.isFree).zip l.waiting).length := by
  induction cpus generalizing l r with
  | nil =>
    obtain ⟨rfl, rfl⟩ := Prod.mk.inj (Except.ok.inj hok)
    simp
  | cons cpu cpus ih =>
    obtain ⟨hnew, hrest⟩ := List.nodup_cons.mp hnodup
    have skip : l.isFree cpu = false → assignLoop cpus l r = .ok (l', r') →
        r'.pairs = r.pairs ++ ((cpu :: cpus).filter l.isFree).zip l.waiting ∧
          l'.rq = l.rq.drop (((cpu :: cpus).filter l.isFree).zip l.waiting).length := fun hbusy hnext => by
      rw [List.filter_cons_of_neg (by simp [hbusy])]
      exact ih hrest hkeyed hnext
    rw [assignLoop] at hok
    split at hok
    · rename_i hlord
      exact skip (by simp [isFree, hlord]) hok
    rename_i hlord
    cases hread : l.cpuStates.read cpu with
    | none => simp [hread] at hok
    | some state =>
      have hbound : cpu < l.cpuStates.capacity := (Buffer.inBounds_natCast ..).mp (Buffer.read_eq_some.mp hread).1
      have hcell : l.cpuStates.cell cpu = state := (Buffer.read_eq_some.mp hread).2
      rw [hread] at hok
      by_cases hcos : state = .cos
      · subst hcos
        exact skip (by simp [isFree, hcell]) hok
      have hfree : l.isFree cpu = true := by simp [isFree, hlord, hcell, hcos]
      rw [List.filter_cons_of_pos hfree]
      cases state with
      | cos => exact absurd rfl hcos
      | idle | nocos =>
        dsimp only at hok
        by_cases hpeek : l.rq.peek.toInt32 = 0
        · rw [if_pos hpeek] at hok
          obtain ⟨rfl, rfl⟩ := Prod.mk.inj (Except.ok.inj hok)
          simp [waiting_of_peek_eq_zero hpeek]
        obtain ⟨hqueue, hzero⟩ := peek_toInt32_ne hpeek
        rw [if_neg hpeek, UInt32.toUInt32_toInt32] at hok
        cases halive : l.aliveTasks l.rq.peek with
        | none => simp [halive] at hok
        | some next =>
          have hkey := hkeyed _ next halive
          simp only [halive, Lord.modifyCpu, Lord.setTask, Buffer.modify_natCast _ hbound] at hok
          rw [Buffer.read_natCast (by simpa using hbound)] at hok
          simp only [Buffer.set_cell_self, hkey] at hok
          have hkey' : (next.shootOn () cpu).pid.toUInt32 = l.rq.peek := hkey
          obtain ⟨hpairs, hdrop⟩ := ih hrest (Lord.keyed_update hkeyed hkey') hok
          rw [filter_isFree_shoot hnew] at hpairs hdrop
          rw [waiting_of_peek_ne_zero hqueue hzero]
          constructor
          · rw [hpairs, Round.pairs_push, List.append_assoc]
            rfl
          · rw [hdrop, List.zip_cons_cons, List.length_cons, ← List.drop_tail]
            rfl

/-- What `assign` makes of the queue and of the CPUs. -/
theorem assign_eq_shots (hinv : Inv cpuNum lordCpu l) (hassign : (fifo cpuNum).assign answer l = .ok (l₁, r)) :
    r.pairs = l.shots cpuNum ∧ l₁.rq = l.rq.drop (l.shots cpuNum).length := by
  obtain ⟨hpairs, hdrop⟩ := assignLoop_eq List.nodup_range hinv.sound.keyed hassign
  rw [Round.pairs_empty, List.nil_append] at hpairs
  exact ⟨hpairs, hdrop⟩

/-- After `assign` the queue is empty or no CPU is free. -/
theorem assign_work_conserving (hinv : Inv cpuNum lordCpu l) (hzero : 0 ∉ l.rq)
    (hassign : (fifo cpuNum).assign answer l = .ok (l₁, r)) :
    l₁.rq = [] ∨ ∀ cpu < cpuNum, (cpu : Int) ≠ l.lordCpu → l₁.cpuStates.cell cpu = .cos := by
  have hplaced : Placed cpuNum l l₁ r := (fifoDiscipline cpuNum).assigned hinv.sound hassign
  obtain ⟨hpairs, hqueue⟩ := assign_eq_shots hinv hassign
  have hn := length_shots cpuNum l
  rw [waiting_of_zero_notMem hzero] at hn
  by_cases hall : l.rq.length ≤ (l.free cpuNum).length
  · left
    rw [hqueue, hn, Nat.min_eq_right hall, List.drop_length]
  · right
    intro cpu hlt hlord
    by_cases hmem : cpu ∈ r.pairs.map Prod.fst
    · obtain ⟨⟨c, tid⟩, hpair, rfl⟩ := List.mem_map.mp hmem
      exact hplaced.marked c tid hpair
    · -- every free CPU was shot onto
      rw [hplaced.untouched cpu hmem]
      by_contra hcell
      apply hmem
      rw [hpairs, shots_map_fst, hn, List.take_of_length_le (by omega)]
      simp [free, isFree, hlt, hlord, hcell]

/-- **`schedule` is its policy and work conserving**: it calls `shoot_task` exactly if a task waits for a free CPU, the first tasks of the queue get the first free CPUs, and in the end the queue is empty or no CPU is free. -/
theorem schedule_serves_queue (hcpu : cpuNum ≤ shootAreaSize) {lordPid : UInt32} {ops : List (Scheduler.Op ShootAnswer)}
    (hrun : Runs ((fifo cpuNum).Step (fifo cpuNum).Clean) (Lord.new cpuNum lordCpu lordPid) ops l) (hzero : 0 ∉ l.rq)
    (hanswer : answer.Success) :
    let n := min (l.free cpuNum).length l.rq.length
    ∃ l₁ r l', (fifo cpuNum).assign answer l = .ok (l₁, r) ∧ (fifo cpuNum).schedule answer l = .ok l' ∧
      r.assigned = (((l.free cpuNum).take n).zip (l.rq.take n)).map (fun (cpu, tid) => (cpu, ⟨tid, saRight⟩)) ∧
      (∀ cpu < cpuSetSize, cpu ∈ r.assignedMask ↔ cpu ∈ (l.free cpuNum).take n) ∧
      (r.assigned ≠ [] ↔ 0 < n) ∧
      (∃ call, l₁.shootCall r = .ok call ∧ (call.isSome ↔ 0 < n) ∧ ∀ c ∈ call,
        (∀ cpu < cpuSetSize, cpu ∈ c.mask ↔ cpu ∈ (l.free cpuNum).take n) ∧
        ∀ cpu tid, (cpu, tid) ∈ ((l.free cpuNum).take n).zip (l.rq.take n) → c.sa.area.cell cpu = ⟨tid, saRight⟩) ∧
      (∀ cpu tid, (cpu, tid) ∈ ((l.free cpuNum).take n).zip (l.rq.take n) →
        l'.sa.area.cell cpu = ⟨tid, saRight⟩) ∧
      (∀ cpu tid, (cpu, tid) ∈ ((l.free cpuNum).take n).zip (l.rq.take n) → l'.cpuStates.cell cpu = .cos ∧
        ∃ task, l.aliveTasks tid = some task ∧
          l'.aliveTasks tid = some { task with state := .onCpu, cpuId := cpu }) ∧
      (∀ tid ∉ l.rq.take n, l'.aliveTasks tid = l.aliveTasks tid) ∧
      (∀ cpu ∉ (l.free cpuNum).take n, l'.cpuStates.cell cpu = l.cpuStates.cell cpu) ∧
      l'.rq = l.rq.drop n ∧
      (l'.rq = [] ∨ ∀ cpu < cpuNum, (cpu : Int) ≠ l.lordCpu → l'.cpuStates.cell cpu = .cos) := by
  have hinv := inv_of_runs hrun
  obtain ⟨l₁, r, hassign, hplaced⟩ := assign_placed hinv.sound answer
  obtain ⟨sa, hok, hcommitted, harea⟩ := (fifoDiscipline cpuNum).schedule_success hcpu hinv.sound hassign hanswer
  obtain ⟨call, hcall, hsome, hfound⟩ := (fifoDiscipline cpuNum).shootCall_eq hcpu hinv.sound hassign
  obtain ⟨hpairs, hqueue⟩ := assign_eq_shots hinv hassign
  have hconserving := assign_work_conserving hinv hzero hassign
  have hwaiting := waiting_of_zero_notMem hzero
  have hn : (l.shots cpuNum).length = min (l.free cpuNum).length l.rq.length := by
    rw [length_shots, hwaiting]
  have hzip : ((l.free cpuNum).take (min (l.free cpuNum).length l.rq.length)).zip
      (l.rq.take (min (l.free cpuNum).length l.rq.length)) = r.pairs := by
    rw [hpairs, shots, hwaiting]
    exact List.zip_eq_zip_take_min.symm
  have hcpus : (l.free cpuNum).take (min (l.free cpuNum).length l.rq.length) = r.pairs.map Prod.fst := by
    rw [hpairs, shots_map_fst, hn]
  have htids : l.rq.take (min (l.free cpuNum).length l.rq.length) = r.pairs.map Prod.snd := by
    rw [hpairs, shots_map_snd, hn]
  dsimp only
  refine ⟨l₁, r, _, hassign, hok, ?_, ?_, ?_, ⟨call, hcall, ?_, fun c hc => ?_⟩, ?_, ?_, ?_, ?_, ?_, ?_⟩
  · rw [hzip]
    exact hcommitted
  · rw [hcpus]
    exact hplaced.mask
  · rw [← hn, ← hpairs, Round.pairs, List.length_map, List.length_pos_iff]
  · rw [hsome, ← hn, ← hpairs, List.length_pos_iff]
  · obtain ⟨hmask, hcells⟩ := hfound c hc
    rw [hzip, hcpus, hmask]
    exact ⟨hplaced.mask, hcells⟩
  · rw [hzip]
    exact harea
  · rw [hzip]
    exact fun cpu tid hpair => ⟨hplaced.marked cpu tid hpair, hplaced.placed cpu tid hpair⟩
  · rw [htids]
    exact hplaced.others
  · rw [hcpus]
    exact hplaced.untouched
  · rw [← hn]
    exact hqueue
  · exact hconserving

/-- Two tasks wait for one CPU. -/
theorem schedule_serves_queue_two :
    ∃ l l₁ l' : FifoLord, ∃ r call,
      Runs ((fifo 2).Step (fifo 2).Clean) (Lord.new 2 0 1) [.msg ⟨10, 3, 1⟩, .msg ⟨11, 3, 2⟩] l ∧
      (fifo 2).assign ⟨0, ∅⟩ l = .ok (l₁, r) ∧ l₁.shootCall r = .ok call ∧ call.isSome ∧
      (fifo 2).schedule ⟨0, ∅⟩ l = .ok l' ∧ l'.rq = [11] ∧ l'.cpuStates.cell 1 = .cos := by
  have hrun : Runs ((fifo 2).Step (fifo 2).Clean) (Lord.new 2 0 1) [.msg ⟨10, 3, 1⟩, .msg ⟨11, 3, 2⟩] _ :=
    .cons ⟨trivial, rfl⟩ (.cons ⟨trivial, rfl⟩ .nil)
  obtain ⟨l₁, r, l', hassign, hok, -, -, -, ⟨call, hcall, hsome, -⟩, -, hshot, -, -, hqueue, -⟩ :=
    schedule_serves_queue (by decide) hrun (by decide) (show ShootAnswer.Success ⟨0, ∅⟩ from ⟨rfl, rfl⟩)
  exact ⟨_, l₁, l', r, call, hrun, hassign, hcall, hsome.mpr (by decide), hok, hqueue, (hshot 1 10 (by decide)).1⟩

end FifoLord

end CosUserspace
