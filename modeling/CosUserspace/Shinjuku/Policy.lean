import CosUserspace.Library.Queue
import CosUserspace.Shinjuku.Invariant

/-!
# The policy of ShinjukuLord

`schedule` serves the queued tasks that are not idle by the epistle, in queue order, with the CPUs that it may shoot onto: first the idle ones, then those taken by cfs, then those whose task may be displaced, each kind in ascending order. The tasks that are idle by the epistle and stood before the first task left unserved go to the end of the queue.
-/

namespace CosUserspace

open Shinjuku

namespace ShinjukuLord

/-- The epistle entry of the task is IDLE. -/
def idleBy (epistle : Hints) (tid : UInt32) : Bool :=
  match epistle.get tid.toInt32 with
  | .ok hint => hint == epistleThreadIdle
  | .error _ => false

/-- A CPU of this type that is not the lord's. -/
def isOf (type : ThreadType) (l : ShinjukuLord) (cpu : Nat) : Bool :=
  (cpu : Int) ≠ l.lordCpu ∧ (l.cpuStates.cell cpu).type = type

/-- The task that the CPU names has used up its slice or is idle by the epistle. -/
def displaceable (input : ScheduleInput) (l : ShinjukuLord) (cpu : Nat) : Bool :=
  match l.aliveTasks (l.cpuStates.cell cpu).pid with
  | none => false
  | some task =>
    task.lastShootTime.toNat + preemptTimeSlice.toNat ≤ input.currentTime.toNat ||
      idleBy input.epistle (l.cpuStates.cell cpu).pid

/-- The CPUs to shoot onto, in the order in which they are taken. -/
def targets (cpuNum : Nat) (input : ScheduleInput) (l : ShinjukuLord) : List Nat :=
  let cpus := List.range' 3 (cpuNum - 3)
  cpus.filter (isOf .idle l) ++
    (cpus.filter (isOf .cfs l) ++ cpus.filter fun cpu => isOf .cos l cpu && displaceable input l cpu)

/-- The queued tasks that the epistle does not call IDLE. -/
def runnable (input : ScheduleInput) (l : ShinjukuLord) : RunQueue := l.rq.filter (! idleBy input.epistle ·)

section Loops

variable {cpuNum : Nat} {lordCpu : Int} {input : ScheduleInput} {l : ShinjukuLord}

theorem elapsed_iff {now last : UInt64} (hclock : last ≤ now) :
    now - last ≥ preemptTimeSlice ↔ last.toNat + preemptTimeSlice.toNat ≤ now.toNat := by
  have hle := UInt64.le_iff_toNat_le.mp hclock
  rw [ge_iff_le, UInt64.le_iff_toNat_le, UInt64.toNat_sub_of_le _ _ hclock]
  omega

theorem preemptable_eq {tid : UInt32} {task : Task UInt64} (hkey : task.pid.toUInt32 = tid)
    (hclock : task.lastShootTime ≤ input.currentTime) {displaced : Bool}
    (hok : preemptable input task = .ok displaced) :
    displaced = (task.lastShootTime.toNat + preemptTimeSlice.toNat ≤ input.currentTime.toNat ||
      idleBy input.epistle tid : Bool) := by
  have hpid : tid.toInt32 = task.pid := by
    rw [← hkey]
    exact Int32.toInt32_toUInt32 _
  unfold preemptable at hok
  split at hok
  · rename_i helapsed
    obtain rfl := Except.ok.inj hok
    simp [(elapsed_iff hclock).mp helapsed]
  · rename_i helapsed
    rw [idleBy, hpid]
    cases hhint : input.epistle.get task.pid with
    | error stop => simp [hhint, Except.map] at hok
    | ok hint =>
      rw [hhint] at hok
      obtain rfl := Except.ok.inj hok
      simp [mt (elapsed_iff hclock).mpr helapsed]

/-- The three kinds of CPUs, each in ascending order. -/
theorem classify_eq (hinv : Inv cpuNum lordCpu l)
    (hclock : ∀ tid task, l.aliveTasks tid = some task → task.lastShootTime ≤ input.currentTime) {cpus : List Nat}
    (hlt : ∀ cpu ∈ cpus, cpu < cpuNum) {pools pools' : Pools} (hok : classify input l cpus pools = .ok pools') :
    pools' = ⟨pools.idleCpu ++ cpus.filter (isOf .idle l), pools.cfsCpu ++ cpus.filter (isOf .cfs l),
      pools.cosCpu ++ cpus.filter fun cpu => isOf .cos l cpu && displaceable input l cpu⟩ := by
  induction cpus generalizing pools with
  | nil =>
    obtain rfl := Except.ok.inj hok
    simp
  | cons cpu cpus ih =>
    obtain ⟨hcpu, hlt⟩ := List.forall_mem_cons.mp hlt
    rw [classify] at hok
    split at hok
    · rename_i hlord
      rw [ih hlt hok]
      simp [isOf, hlord]
    rename_i hlord
    cases hread : l.cpuStates.read cpu with
    | none => simp [hread] at hok
    | some state =>
      have hcell : l.cpuStates.cell cpu = state := (Buffer.read_eq_some.mp hread).2
      obtain ⟨type, pid⟩ := state
      simp only [hread] at hok
      cases type with
      | idle | cfs =>
        rw [ih hlt hok]
        simp [isOf, hlord, hcell]
      | cos =>
        obtain ⟨-, -, -, task, halive, honCpu, -⟩ := hinv.owned cpu hcpu (by rw [hcell])
        rw [hcell] at halive
        have halivePid : l.aliveTasks pid = some task := halive
        simp only [halivePid, honCpu, ne_eq, not_true_eq_false, if_false] at hok
        cases hpreempt : preemptable input task with
        | error stop => simp [hpreempt] at hok
        | ok displaced =>
          have hdisplaced := preemptable_eq (hinv.sound.keyed pid task halivePid) (hclock pid task halivePid) hpreempt
          have hentry : displaceable input l cpu = displaced := by
            rw [displaceable, hcell, hdisplaced]
            simp only [halivePid]
          rw [hpreempt] at hok
          cases displaced with
          | true =>
            rw [ih hlt hok]
            simp [isOf, hlord, hcell, hentry]
          | false =>
            rw [ih hlt hok]
            simp [isOf, hlord, hcell, hentry]

theorem cpus_of_take_eq_none {pools : Pools} (htake : pools.take = none) : pools.cpus = [] := by
  obtain ⟨idleCpu, cfsCpu, cosCpu⟩ := pools
  cases idleCpu with
  | cons cpu idleCpu => cases htake
  | nil =>
    cases cfsCpu with
    | cons cpu cfsCpu => cases htake
    | nil =>
      cases cosCpu with
      | cons cpu cosCpu => cases htake
      | nil => rfl

/-- The loop is a walk over the run queue, with the CPUs of the pools as servers. -/
theorem assignLoop_eq_drain {rq : RunQueue} (hzero : 0 ∉ rq) {pools : Pools} {onqueueIdle onqueueIdle' : RunQueue}
    {l l' : ShinjukuLord} {r r' : Round Shinjuku.CpuState}
    (hkeyed : ∀ tid task, l.aliveTasks tid = some task → task.pid.toUInt32 = tid)
    (hok : assignLoop input rq pools onqueueIdle l r = .ok (onqueueIdle', l', r')) :
    let d := drain (! idleBy input.epistle ·) rq pools.cpus
    r'.pairs = r.pairs ++ d.served ∧ l'.rq = d.rest ∧ onqueueIdle' = onqueueIdle ++ d.passed := by
  induction rq generalizing pools onqueueIdle l r with
  | nil =>
    obtain ⟨rfl, hrest⟩ := Prod.mk.inj (Except.ok.inj hok)
    obtain ⟨rfl, rfl⟩ := Prod.mk.inj hrest
    simp [drain]
  | cons head rest ih =>
    rw [List.mem_cons, not_or] at hzero
    obtain ⟨hhead, hzero⟩ := hzero
    rw [assignLoop, if_neg (toInt32_ne_zero.mpr (Ne.symm hhead))] at hok
    cases hhint : input.epistle.get head.toInt32 with
    | error stop => simp [hhint] at hok
    | ok hint =>
      simp only [hhint, UInt32.toUInt32_toInt32] at hok
      by_cases hset : hint = epistleThreadIdle
      · have hidle : idleBy input.epistle head = true := by simp [idleBy, hhint, hset]
        rw [if_pos hset] at hok
        obtain ⟨hpairs, hrest, hpassed⟩ := ih hzero hkeyed hok
        rw [drain_cons_passed (by simp [hidle])]
        refine ⟨hpairs, hrest, ?_⟩
        rw [hpassed]
        simp [RunQueue.enqueue]
      · have hactive : idleBy input.epistle head = false := by simp [idleBy, hhint, hset]
        rw [if_neg hset] at hok
        cases htake : pools.take with
        | none =>
          rw [htake] at hok
          obtain ⟨rfl, hlast⟩ := Prod.mk.inj (Except.ok.inj hok)
          obtain ⟨rfl, rfl⟩ := Prod.mk.inj hlast
          rw [cpus_of_take_eq_none htake, drain_cons_nil (by simp [hactive])]
          simp
        | some taken =>
          obtain ⟨cpu, pools'⟩ := taken
          simp only [htake] at hok
          cases halive : l.aliveTasks head with
          | none => simp [halive] at hok
          | some next =>
            have hkey := hkeyed head next halive
            cases hread : l.cpuStates.read cpu with
            | none => simp [halive, hread] at hok
            | some old =>
              have hbound : cpu < l.cpuStates.capacity :=
                (Buffer.inBounds_natCast ..).mp (Buffer.read_eq_some.mp hread).1
              simp only [halive, hread, Lord.modifyCpu, Lord.setTask, Buffer.modify_natCast _ hbound, hkey] at hok
              have hkey' : (next.shootOn input.currentTime cpu).pid.toUInt32 = head := hkey
              obtain ⟨hpairs, hrest, hpassed⟩ := ih hzero (Lord.keyed_update hkeyed hkey') hok
              rw [Pools.take_eq_some htake, drain_cons_served (by simp [hactive])]
              refine ⟨?_, hrest, hpassed⟩
              rw [hpairs, Round.pairs_push, List.append_assoc]
              rfl

/-- What `assign` makes of the queue and of the CPUs. -/
theorem assign_eq_policy (hinv : Inv cpuNum lordCpu l) (hzero : 0 ∉ l.rq)
    (hclock : ∀ tid task, l.aliveTasks tid = some task → task.lastShootTime ≤ input.currentTime)
    {l₁ : ShinjukuLord} {r : Round Shinjuku.CpuState} (hassign : assign cpuNum input l = .ok (l₁, r)) :
    let n := (l.targets cpuNum input).length
    r.pairs = (l.targets cpuNum input).zip (l.runnable input) ∧
    l₁.rq = behind (! idleBy input.epistle ·) n l.rq ++
      (ahead (! idleBy input.epistle ·) n l.rq).filter (idleBy input.epistle) := by
  cases hclassify : classify input l (List.range' 3 (cpuNum - 3)) .empty with
  | error stop => simp [assign, hclassify] at hassign
  | ok pools =>
    have hcpus : pools.cpus = l.targets cpuNum input := by
      rw [classify_eq hinv hclock (fun cpu hmem => by have hcpu := List.mem_range'_1.mp hmem; omega) hclassify]
      rfl
    cases hloop : assignLoop input l.rq pools [] l .empty with
    | error stop => simp [assign, hclassify, hloop] at hassign
    | ok result =>
      obtain ⟨onqueueIdle, l₂, r₂⟩ := result
      simp only [assign, hclassify, hloop, Except.ok.injEq, Prod.mk.injEq] at hassign
      obtain ⟨rfl, rfl⟩ := hassign
      obtain ⟨hpairs, hrest, hpassed⟩ := assignLoop_eq_drain hzero hinv.sound.keyed hloop
      rw [drain_eq hinv.sound.tracks.nodup, hcpus] at hpairs hrest hpassed
      have hidle : 0 ∉ onqueueIdle := by
        rw [hpassed]
        exact fun hmem => hzero (mem_of_mem_ahead (List.mem_of_mem_filter hmem))
      refine ⟨hpairs, ?_⟩
      rw [moveBack_eq _ hidle, hrest, hpassed]
      simp

/-- **`schedule` is its policy**: the tasks that may run are paired with the CPUs that may be shot onto, both in their order. That no flag of the area is up before the call is part of `Inv`: a kernel that answers with an error flags nothing, and the check of a round that it takes takes all flags down, so every run keeps it. -/
theorem schedule_eq_policy (hcpu : cpuNum ≤ shootAreaSize) (hinv : Inv cpuNum lordCpu l) (hzero : 0 ∉ l.rq)
    (hclock : ∀ tid task, l.aliveTasks tid = some task → task.lastShootTime ≤ input.currentTime)
    (hempty : ∃ idx, (input.epistle.table idx).key = 0) (hanswer : input.answer.Success) :
    let pairs := (l.targets cpuNum input).zip (l.runnable input)
    let n := (l.targets cpuNum input).length
    ∃ l₁ r l', (shinjuku cpuNum).assign input l = .ok (l₁, r) ∧ (shinjuku cpuNum).schedule input l = .ok l' ∧
      r.assigned = (pairs.map fun (cpu, tid) => (cpu, ⟨tid, saRight⟩)) ∧
      (∀ cpu tid, (cpu, tid) ∈ pairs → l'.sa.area.cell cpu = ⟨tid, saRight⟩) ∧
      (∀ cpu tid, (cpu, tid) ∈ pairs → l'.cpuStates.cell cpu = ⟨.cos, tid⟩ ∧ ∃ task, l.aliveTasks tid = some task ∧
        l'.aliveTasks tid =
          some { task with state := .onCpu, cpuId := cpu, lastShootTime := input.currentTime }) ∧
      (∀ tid ∉ pairs.map Prod.snd, l'.aliveTasks tid = l.aliveTasks tid) ∧
      (∀ cpu ∉ pairs.map Prod.fst, l'.cpuStates.cell cpu = l.cpuStates.cell cpu) ∧
      l'.rq = behind (! idleBy input.epistle ·) n l.rq ++
        (ahead (! idleBy input.epistle ·) n l.rq).filter (idleBy input.epistle) := by
  obtain ⟨l', hok⟩ := hinv.schedule_returns hcpu (ShootAnswer.Success.clean hanswer) hempty
  cases hassign : assign cpuNum input l with
  | error stop => simp [Scheduler.schedule, shinjuku, hassign] at hok
  | ok placed =>
    obtain ⟨l₁, r⟩ := placed
    have hassigned := placed_of_assign cpuNum hinv.sound hassign
    obtain ⟨sa, hsuccess, hcommitted, harea⟩ :=
      (shinjukuDiscipline cpuNum).schedule_success hcpu hinv.sound hassign hanswer
    obtain rfl := Except.ok.inj (hok.symm.trans hsuccess)
    obtain ⟨hpairs, hqueue⟩ := assign_eq_policy hinv hzero hclock hassign
    rw [hpairs] at hcommitted
    refine ⟨l₁, r, _, hassign, hok, hcommitted, ?_, ?_, ?_, ?_, hqueue⟩
    · rw [← hpairs]
      exact harea
    · intro cpu tid hpair
      rw [← hpairs] at hpair
      exact ⟨hassigned.marked cpu tid hpair, hassigned.placed cpu tid hpair⟩
    · rw [← hpairs]
      exact hassigned.others
    · rw [← hpairs]
      exact hassigned.untouched

end Loops

def waitingTask (tid : Int32) : Task UInt64 := ⟨tid, .queued, -1, 0⟩

/-- Three tasks wait, and CPU 3 is idle. -/
def threeWaiting : ShinjukuLord :=
  { (Lord.new 4 0 1 : ShinjukuLord) with
    rq := [10, 11, 12]
    aliveTasks := Function.update (Function.update (Function.update (fun _ => none) 10 (some (waitingTask 10)))
      11 (some (waitingTask 11))) 12 (some (waitingTask 12)) }

/-- The first of them is idle by the epistle. -/
def firstIdle : ScheduleInput where
  currentTime := 1000
  epistle := (Epistle.init : Hints).put ⟨10, by decide⟩ 10 epistleThreadIdle
  answer := ⟨0, ∅⟩

theorem threeWaiting_inv : Inv 4 0 threeWaiting := by
  have hrun : Runs ((shinjuku 4).Step Guarded) (Lord.new 4 0 1)
      [.msg ⟨10, 3, 0⟩, .msg ⟨11, 3, 0⟩, .msg ⟨12, 3, 0⟩] threeWaiting :=
    .cons ⟨⟨by decide, by decide⟩, rfl⟩ (.cons ⟨⟨by decide, by decide⟩, rfl⟩ (.cons ⟨⟨by decide, by decide⟩, rfl⟩ .nil))
  exact inv_of_runs hrun

theorem schedule_eq_policy_three :
    ∃ l', (shinjuku 4).schedule firstIdle threeWaiting = .ok l' ∧ l'.rq = [12, 10] ∧
      l'.cpuStates.cell 3 = ⟨.cos, 11⟩ := by
  have hclock : ∀ tid task, threeWaiting.aliveTasks tid = some task → task.lastShootTime ≤ firstIdle.currentTime := by
    intro tid task halive
    have hzero : task.lastShootTime = 0 := by
      simp only [threeWaiting, Function.update_apply] at halive
      split_ifs at halive <;> rw [← Option.some.inj halive] <;> rfl
    rw [hzero]
    decide
  obtain ⟨l₁, r, l', -, hok, -, -, hpairs, -, -, hqueue⟩ :=
    schedule_eq_policy (by decide) threeWaiting_inv (by decide) hclock ⟨⟨0, by decide⟩, rfl⟩ ⟨rfl, rfl⟩
  have hpair : (3, 11) ∈ (threeWaiting.targets 4 firstIdle).zip (threeWaiting.runnable firstIdle) := by decide
  exact ⟨l', hok, hqueue.trans (by decide), (hpairs 3 11 hpair).1⟩

end ShinjukuLord

end CosUserspace
