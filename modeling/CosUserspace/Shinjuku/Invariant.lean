import CosUserspace.Shinjuku.Assignment

/-!
# The owners of the CPUs

A shoot may displace a running task, so several tasks can be OnCpu with one `cpu_id` while the record of the CPU names only the last one. What every run keeps is the other direction: a CPU of type COS names an alive task that is OnCpu there. Two messages could break it, RUNNABLE about an OnCpu task and COS_PREEMPT about the task that the record still names.
-/

namespace CosUserspace

open Shinjuku

namespace ShinjukuLord

/-- No RUNNABLE message about an OnCpu task, and COS_PREEMPT about one only when the record of its CPU names another task. -/
def Guarded (l : ShinjukuLord) : Scheduler.Op ScheduleInput → Prop
  | .msg m =>
    (MsgType.ofCode m.type = some .runnable → l.status m.pid.toUInt32 ≠ some .onCpu) ∧
    (MsgType.ofCode m.type = some .cosPreempt → ∀ task, l.aliveTasks m.pid.toUInt32 = some task →
      task.state = .onCpu → (l.cpuStates.cell task.cpuId.toNat).pid ≠ m.pid.toUInt32)
  | .schedule input => input.answer.Clean

theorem Guarded.clean {cpuNum : Nat} {l : ShinjukuLord} {op : Scheduler.Op ScheduleInput} (h : l.Guarded op) :
    (shinjuku cpuNum).Clean l op := by
  cases op with
  | msg m => trivial
  | schedule input => exact h

/-- A guarded message about a task on `cpu` leaves `cpu` of type COS only when another task owns it. -/
theorem Guarded.keeps_owner {l : ShinjukuLord} {m : CosMsg} (hguard : l.Guarded (.msg m)) {kind : MsgType}
    {next : Option RunState} (hkind : MsgType.ofCode m.type = some kind)
    (hnext : Lifecycle.next kind (l.status m.pid.toUInt32) = .ok next) {task : Task UInt64} {cpu : Nat}
    (halive : l.aliveTasks m.pid.toUInt32 = some task) (honCpu : task.state = .onCpu) (hcpu : task.cpuId = cpu)
    (hcos : ((l.move kind m.pid.toUInt32 next).cpuStates.cell cpu).type = .cos) :
    (l.move kind m.pid.toUInt32 next).cpuStates.cell cpu = l.cpuStates.cell cpu ∧
      (l.cpuStates.cell cpu).pid ≠ m.pid.toUInt32 := by
  have hstatus : l.status m.pid.toUInt32 = some .onCpu := by rw [Lord.status_of_aliveTasks halive, honCpu]
  have hcell : (l.move kind m.pid.toUInt32 next).cpuStates.cell cpu = cpuWrite kind (l.cpuStates.cell cpu) :=
    Lord.cpusAfter_cell_self kind halive honCpu hcpu
  rw [hstatus] at hnext
  rw [hcell] at hcos ⊢
  cases kind with
  | runnable => exact absurd hstatus (hguard.1 hkind)
  | blocked | dead | preempt => simp [cpuWrite, CpuRecord.idle, CpuRecord.takenByCfs] at hcos
  | new | newBlocked => simp [Lifecycle.next] at hnext
  | cosPreempt =>
    have hother := hguard.2 hkind task halive honCpu
    rw [hcpu] at hother
    exact ⟨rfl, hother⟩

/-- `cpu` is of type COS only with an owner. -/
structure Inv (cpuNum : Nat) (lordCpu : Int) (l : ShinjukuLord) : Prop where
  sound : l.Sound cpuNum
  lordCpu_eq : l.lordCpu = lordCpu
  owned : ∀ cpu < cpuNum, (l.cpuStates.cell cpu).type = .cos →
    3 ≤ cpu ∧ (cpu : Int) ≠ lordCpu ∧ (l.cpuStates.cell cpu).pid ≠ 0 ∧
    ∃ task, l.aliveTasks (l.cpuStates.cell cpu).pid = some task ∧ task.state = .onCpu ∧ task.cpuId = cpu

namespace Inv

variable {cpuNum : Nat} {lordCpu : Int} {l l' : ShinjukuLord}

theorem new (cpuNum : Nat) (lordCpu : Int) (lordPid : UInt32) :
    Inv cpuNum lordCpu (Lord.new cpuNum lordCpu lordPid) where
  sound := .new ..
  lordCpu_eq := rfl
  owned cpu hlt hcos := by simp [Lord.new, Buffer.fill_cell _ _ hlt, CpuRecord.idle] at hcos

theorem handle (hinv : Inv cpuNum lordCpu l) {m : CosMsg} (hguard : l.Guarded (.msg m))
    (hok : l.handle m = .ok l') : Inv cpuNum lordCpu l' := by
  rcases hinv.sound.handle_ok hok with ⟨-, rfl⟩ | ⟨kind, next, hkind, hnext, -, rfl⟩
  · exact hinv
  refine ⟨hinv.sound.handle hok, hinv.lordCpu_eq, fun cpu hlt hcos => ?_⟩
  -- the owner of `cpu` is not the task of the message, so its record stays
  have hsame : (l.move kind m.pid.toUInt32 next).cpuStates.cell cpu = l.cpuStates.cell cpu ∧
      (l.cpuStates.cell cpu).pid ≠ m.pid.toUInt32 := by
    by_cases hleaves : ∃ task, l.aliveTasks m.pid.toUInt32 = some task ∧ task.state = .onCpu ∧ task.cpuId = cpu
    · obtain ⟨task, halive, honCpu, hcpu⟩ := hleaves
      exact hguard.keeps_owner hkind hnext halive honCpu hcpu hcos
    · have hcell : (l.move kind m.pid.toUInt32 next).cpuStates.cell cpu = l.cpuStates.cell cpu :=
        hinv.sound.cpusAfter_cell_of_ne kind fun task halive honCpu hcpu =>
          hleaves ⟨task, halive, honCpu, hcpu⟩
      rw [hcell] at hcos
      refine ⟨hcell, fun heq => ?_⟩
      obtain ⟨-, -, -, task, halive, honCpu, hcpu⟩ := hinv.owned cpu hlt hcos
      exact hleaves ⟨task, heq ▸ halive, honCpu, hcpu⟩
  obtain ⟨hcell, hne⟩ := hsame
  rw [hcell] at hcos ⊢
  obtain ⟨hfirst, hlord, hzero, task, halive, honCpu, hcpu⟩ := hinv.owned cpu hlt hcos
  exact ⟨hfirst, hlord, hzero, task, (Lord.aliveTasks_move_of_ne hne).trans halive, honCpu, hcpu⟩

theorem schedule (hinv : Inv cpuNum lordCpu l) {input : ScheduleInput} (hanswer : input.answer.Clean)
    (hok : (shinjuku cpuNum).schedule input l = .ok l') : Inv cpuNum lordCpu l' := by
  obtain ⟨hsound, _, r, -, hshot⟩ := (shinjukuDiscipline cpuNum).shot hinv.sound hanswer hok
  refine ⟨hsound, hshot.lordCpu_eq.trans hinv.lordCpu_eq, fun cpu hlt hcos => ?_⟩
  -- an owner that was not displaced is still there
  have hold : l'.cpuStates.cell cpu = l.cpuStates.cell cpu → 3 ≤ cpu ∧ (cpu : Int) ≠ lordCpu ∧
      (l'.cpuStates.cell cpu).pid ≠ 0 ∧ ∃ task, l'.aliveTasks (l'.cpuStates.cell cpu).pid = some task ∧
        task.state = .onCpu ∧ task.cpuId = cpu := fun hcell => by
    rw [hcell] at hcos ⊢
    obtain ⟨hfirst, hlord, hzero, task, halive, honCpu, hcpu⟩ := hinv.owned cpu hlt hcos
    exact ⟨hfirst, hlord, hzero, task, hshot.stays halive honCpu, honCpu, hcpu⟩
  by_cases hmem : cpu ∈ r.pairs.map Prod.fst
  · obtain ⟨⟨c, pid⟩, hpair, rfl⟩ := List.mem_map.mp hmem
    by_cases htook : input.answer.Took c
    · have hcell : l'.cpuStates.cell c = ⟨.cos, pid⟩ := (hshot.shotCpu c pid hpair).trans (if_pos htook)
      obtain ⟨task, halive, -⟩ := Lord.status_eq_some.mp (hshot.queued c pid hpair)
      have havail := hshot.avail c pid hpair
      dsimp only
      rw [hcell]
      exact ⟨havail.first, hinv.lordCpu_eq ▸ havail.not_lord, hshot.nonzero c pid hpair, _,
        hshot.shotTask c pid hpair task halive, if_pos htook, rfl⟩
    · exact hold ((hshot.shotCpu c pid hpair).trans (if_neg htook))
  · exact hold (hshot.otherCpu cpu hmem)

theorem step (hinv : Inv cpuNum lordCpu l) {op : Scheduler.Op ScheduleInput}
    (hstep : (shinjuku cpuNum).Step Guarded l op l') : Inv cpuNum lordCpu l' := by
  obtain ⟨hguard, hok⟩ := hstep
  cases op with
  | msg m => exact hinv.handle hguard hok
  | schedule input => exact hinv.schedule hguard hok

/-! ### Every call returns -/

theorem preemptable_ok (hinv : Inv cpuNum lordCpu l) {input : ScheduleInput} {tid : UInt32} {task : Task UInt64}
    (hhints : ∀ key ≠ 0, ∃ hint, input.epistle.get key = .ok hint) (halive : l.aliveTasks tid = some task)
    (hzero : tid ≠ 0) : ∃ displaced, preemptable input task = .ok displaced := by
  have hpid : task.pid ≠ 0 := fun heq => by
    have hkey := hinv.sound.keyed tid task halive
    rw [heq] at hkey
    exact hzero hkey.symm
  obtain ⟨hint, hhint⟩ := hhints task.pid hpid
  unfold preemptable
  split
  · exact ⟨true, rfl⟩
  · exact ⟨hint == epistleThreadIdle, by rw [hhint]; rfl⟩

theorem classify_returns (hinv : Inv cpuNum lordCpu l) {input : ScheduleInput}
    (hhints : ∀ key ≠ 0, ∃ hint, input.epistle.get key = .ok hint) (cpus : List Nat)
    (hlt : ∀ cpu ∈ cpus, cpu < cpuNum) (pools : Pools) : ∃ pools', classify input l cpus pools = .ok pools' := by
  induction cpus generalizing pools with
  | nil => exact ⟨pools, rfl⟩
  | cons cpu cpus ih =>
    obtain ⟨hcpu, hlt⟩ := List.forall_mem_cons.mp hlt
    have hbound : cpu < l.cpuStates.capacity := by
      rw [hinv.sound.capacity]
      exact hcpu
    rw [classify]
    split
    · exact ih hlt pools
    rw [Buffer.read_natCast hbound]
    have howned := hinv.owned cpu hcpu
    generalize l.cpuStates.cell cpu = state at howned
    obtain ⟨type, pid⟩ := state
    cases type with
    | idle | cfs => exact ih hlt _
    | cos =>
      obtain ⟨-, -, hzero, task, halive, honCpu, -⟩ := howned rfl
      have halivePid : l.aliveTasks pid = some task := halive
      obtain ⟨displaced, hdisplaced⟩ := hinv.preemptable_ok hhints halive hzero
      simp only [halivePid, honCpu, ne_eq, not_true_eq_false, if_false, hdisplaced]
      cases displaced <;> exact ih hlt _

/-- `schedule` returns as long as the epistle has an empty slot. -/
theorem schedule_returns (hcpu : cpuNum ≤ shootAreaSize) (hinv : Inv cpuNum lordCpu l) {input : ScheduleInput}
    (hanswer : input.answer.Clean) (hempty : ∃ idx, (input.epistle.table idx).key = 0) :
    ∃ l', (shinjuku cpuNum).schedule input l = .ok l' := by
  have hhints : ∀ key ≠ 0, ∃ hint, input.epistle.get key = .ok hint := by
    intro key hkey
    obtain ⟨idx, hidx⟩ := hempty
    obtain ⟨i, hi, hends⟩ := exists_ends Epistle.hash (k := key) (.inl (Epistle.occ_eq_none.mpr hidx))
    exact ⟨_, Epistle.get_eq hkey hends hi⟩
  obtain ⟨pools, hclassify⟩ := hinv.classify_returns hhints (List.range' 3 (cpuNum - 3))
    (fun cpu hmem => by have hlt := List.mem_range'_1.mp hmem; omega) .empty
  rcases assign_placed hinv.sound hclassify with ⟨key, stop, hkey, hget, -⟩ | ⟨l₁, r, hassign, -⟩
  · obtain ⟨hint, hhint⟩ := hhints key hkey
    rw [hget] at hhint
    cases hhint
  · exact (shinjukuDiscipline cpuNum).schedule_returns hcpu hinv.sound hassign hanswer

end Inv

theorem inv_of_runs {cpuNum : Nat} {lordCpu : Int} {lordPid : UInt32} {ops : List (Scheduler.Op ScheduleInput)}
    {l : ShinjukuLord} (hrun : Runs ((shinjuku cpuNum).Step Guarded) (Lord.new cpuNum lordCpu lordPid) ops l) :
    Inv cpuNum lordCpu l :=
  hrun.invariant (.new cpuNum lordCpu lordPid) fun _ _ _ hinv hstep => hinv.step hstep

/-- **The queue and the CPU records are right in every state reached by guarded calls**: `schedule` returns under every clean answer, whatever the clock and an epistle with an empty slot say, and a handler stops only with a report about the message or with its assert. -/
theorem owners_agree {cpuNum : Nat} (hcpu : cpuNum ≤ shootAreaSize) {lordCpu : Int} {lordPid : UInt32}
    {ops : List (Scheduler.Op ScheduleInput)} {l : ShinjukuLord}
    (hrun : Runs ((shinjuku cpuNum).Step Guarded) (Lord.new cpuNum lordCpu lordPid) ops l) :
    (l.rq.Nodup ∧ ∀ tid, tid ∈ l.rq ↔ l.status tid = some .queued) ∧
    (∀ cpu < cpuNum, (l.cpuStates.cell cpu).type = .cos →
      3 ≤ cpu ∧ (cpu : Int) ≠ lordCpu ∧ ∃ task, l.aliveTasks (l.cpuStates.cell cpu).pid = some task ∧
        task.state = .onCpu ∧ task.cpuId = cpu) ∧
    (∀ input, input.answer.Clean → (∃ idx, (input.epistle.table idx).key = 0) →
      ∃ l', (shinjuku cpuNum).schedule input l = .ok l') ∧
    ∀ m stop, l.handle m = .error stop →
      stop = .sameNewThread ∨ stop = .deadBeforeNew ∨ stop = .preemptBeforeNew ∨ stop = .assertNotBlocked ∨
        stop = .assertCpuCos := by
  have hinv := inv_of_runs hrun
  refine ⟨⟨hinv.sound.tracks.nodup, hinv.sound.tracks.mem_iff⟩, ?_, ?_, ?_⟩
  · intro cpu hlt hcos
    obtain ⟨hfirst, hlord, -, howner⟩ := hinv.owned cpu hlt hcos
    exact ⟨hfirst, hlord, howner⟩
  · exact fun input hanswer hempty => hinv.schedule_returns hcpu hanswer hempty
  · intro m stop herror
    rcases hinv.sound.handle_error herror with ⟨kind, -, hnext⟩ | ⟨rfl, -⟩
    · rcases Lifecycle.next_error hnext with rfl | rfl | rfl | rfl <;> simp
    · simp

theorem owners_agree_first :
    ∃ l : ShinjukuLord, Runs ((shinjuku 4).Step Guarded) (Lord.new 4 0 1)
        [.msg ⟨10, 3, 1⟩, .schedule ⟨1000, .init, ⟨0, ∅⟩⟩] l ∧
      l.cpuStates.cell 3 = ⟨.cos, 10⟩ ∧ ∀ tid, tid ∈ l.rq ↔ l.status tid = some .queued := by
  have hrun : Runs ((shinjuku 4).Step Guarded) (Lord.new 4 0 1)
      [.msg ⟨10, 3, 1⟩, .schedule ⟨1000, .init, ⟨0, ∅⟩⟩] _ :=
    .cons ⟨⟨by decide, by decide⟩, rfl⟩ (.cons ⟨fun _ => rfl, rfl⟩ .nil)
  exact ⟨_, hrun, rfl, (owners_agree (by decide) hrun).1.2⟩

end ShinjukuLord

end CosUserspace
