import CosUserspace.Fifo.Lord

/-!
# The tables of FifoLord agree

The run queue is handled by `Lord.Sound`. The CPU part says that a task that is OnCpu has a CPU of its own, other than the lord's and marked COS. A message takes the mark off the CPU of its own task at most, and a shot goes to a CPU that is not marked.
-/

namespace CosUserspace

namespace FifoLord

/-- The representation invariant of a lord on the CPU `lordCpu`. -/
structure Inv (cpuNum : Nat) (lordCpu : Int) (l : FifoLord) : Prop where
  sound : l.Sound cpuNum
  lordCpu_eq : l.lordCpu = lordCpu
  held : ∀ tid task (cpu : Nat), l.aliveTasks tid = some task → task.state = .onCpu → task.cpuId = cpu →
    (cpu : Int) ≠ lordCpu ∧ l.cpuStates.cell cpu = .cos
  exclusive : ∀ tid tid' task task', l.aliveTasks tid = some task → l.aliveTasks tid' = some task' →
    task.state = .onCpu → task'.state = .onCpu → task.cpuId = task'.cpuId → tid = tid'

namespace Inv

variable {cpuNum : Nat} {lordCpu : Int} {l l' : FifoLord}

theorem new (cpuNum : Nat) (lordCpu : Int) (lordPid : UInt32) :
    Inv cpuNum lordCpu (Lord.new cpuNum lordCpu lordPid) where
  sound := .new ..
  lordCpu_eq := rfl
  held := by simp [Lord.new]
  exclusive := by simp [Lord.new]

theorem not_avail (hinv : Inv cpuNum lordCpu l) {tid : UInt32} {task : Task Unit} {cpu : Nat}
    (halive : l.aliveTasks tid = some task) (honCpu : task.state = .onCpu) (hcpu : task.cpuId = cpu) :
    ¬ l.Avail cpuNum cpu :=
  fun havail => havail.2.2 (hinv.held tid task cpu halive honCpu hcpu).2

theorem move (hinv : Inv cpuNum lordCpu l) {kind : MsgType} {tid : UInt32} {next : Option RunState}
    (hnext : next ≠ some .onCpu) : Inv cpuNum lordCpu (l.move kind tid next) where
  sound := hinv.sound.move hnext
  lordCpu_eq := hinv.lordCpu_eq
  held t task cpu halive honCpu hcpu := by
    obtain ⟨hne, hbefore⟩ := Lord.onCpu_of_move hnext halive honCpu
    obtain ⟨hlord, hcos⟩ := hinv.held t task cpu hbefore honCpu hcpu
    refine ⟨hlord, (hinv.sound.cpusAfter_cell_of_ne kind fun task' halive' honCpu' hcpu' => ?_).trans hcos⟩
    exact hne (hinv.exclusive t tid task task' hbefore halive' honCpu honCpu' (hcpu.trans hcpu'.symm))
  exclusive t t' task task' halive halive' honCpu honCpu' :=
    hinv.exclusive t t' task task' (Lord.onCpu_of_move hnext halive honCpu).2
      (Lord.onCpu_of_move hnext halive' honCpu').2 honCpu honCpu'

theorem handle (hinv : Inv cpuNum lordCpu l) {m : CosMsg} (hok : l.handle m = .ok l') :
    Inv cpuNum lordCpu l' := by
  rcases hinv.sound.handle_ok hok with ⟨-, rfl⟩ | ⟨kind, next, -, hnext, -, rfl⟩
  · exact hinv
  · exact hinv.move (Lifecycle.next_ne_onCpu hnext)

theorem cpuLost_eq_false (hinv : Inv cpuNum lordCpu l) (tid : UInt32) : l.cpuLost tid = false := by
  cases halive : l.aliveTasks tid with
  | none => simp [Lord.cpuLost, halive]
  | some task =>
    by_cases honCpu : task.state = .onCpu
    · obtain ⟨cpu, hcpu, -⟩ := hinv.sound.onCpu tid task halive honCpu
      have hcos := (hinv.held tid task cpu halive honCpu hcpu).2
      simp [Lord.cpuLost, halive, hcpu, hcos, CpuRecord.isCos]
    · simp [Lord.cpuLost, halive, honCpu]

theorem shot (hinv : Inv cpuNum lordCpu l) {answer : ShootAnswer} {r : Round Fifo.CpuState}
    (hsound : l'.Sound cpuNum)
    (hshot : Shot () (fun _ => Fifo.CpuState.cos) (fun _ => .cos) (l.Avail cpuNum) answer l l' r) :
    Inv cpuNum lordCpu l' where
  sound := hsound
  lordCpu_eq := hshot.lordCpu_eq.trans hinv.lordCpu_eq
  held t task cpu halive honCpu hcpu := by
    rcases hshot.onCpu_cases halive honCpu with ⟨c, hpair, -, hc⟩ | hbefore
    · obtain rfl : c = cpu := Int.ofNat_inj.mp (hc.symm.trans hcpu)
      have hcell := hshot.shotCpu c t hpair
      rw [ite_self] at hcell
      exact ⟨hinv.lordCpu_eq ▸ (hshot.avail c t hpair).2.1, hcell⟩
    · obtain ⟨hlord, hcos⟩ := hinv.held t task cpu hbefore honCpu hcpu
      refine ⟨hlord, (hshot.otherCpu cpu fun hmem => ?_).trans hcos⟩
      obtain ⟨⟨c, pid⟩, hpair, rfl⟩ := List.mem_map.mp hmem
      exact hinv.not_avail hbefore honCpu hcpu (hshot.avail c pid hpair)
  exclusive t t' task task' halive halive' honCpu honCpu' hcpu := by
    rcases hshot.onCpu_cases halive honCpu with ⟨c, hpair, -, hc⟩ | hbefore <;>
      rcases hshot.onCpu_cases halive' honCpu' with ⟨c', hpair', -, hc'⟩ | hbefore'
    · have hsame : c = c' := Int.ofNat_inj.mp (hc.symm.trans (hcpu.trans hc'))
      exact congrArg Prod.snd (List.inj_on_of_nodup_map hshot.cpus_nodup hpair hpair' hsame)
    · exact absurd (hshot.avail c t hpair) (hinv.not_avail hbefore' honCpu' (hcpu.symm.trans hc))
    · exact absurd (hshot.avail c' t' hpair') (hinv.not_avail hbefore honCpu (hcpu.trans hc'))
    · exact hinv.exclusive t t' task task' hbefore hbefore' honCpu honCpu' hcpu

theorem schedule (hinv : Inv cpuNum lordCpu l) {answer : ShootAnswer}
    (hanswer : answer.Clean) (hok : (fifo cpuNum).schedule answer l = .ok l') : Inv cpuNum lordCpu l' := by
  obtain ⟨hsound, _, _, -, hshot⟩ := (fifoDiscipline cpuNum).shot hinv.sound hanswer hok
  exact hinv.shot hsound hshot

theorem step (hinv : Inv cpuNum lordCpu l) {op : Scheduler.Op ShootAnswer}
    (hstep : (fifo cpuNum).Step (fifo cpuNum).Clean l op l') : Inv cpuNum lordCpu l' := by
  obtain ⟨hclean, hok⟩ := hstep
  cases op with
  | msg m => exact hinv.handle hok
  | schedule answer => exact hinv.schedule hclean hok

end Inv

theorem inv_of_runs {cpuNum : Nat} {lordCpu : Int} {lordPid : UInt32}
    {ops : List (Scheduler.Op ShootAnswer)} {l : FifoLord}
    (hrun : Runs ((fifo cpuNum).Step (fifo cpuNum).Clean) (Lord.new cpuNum lordCpu lordPid) ops l) :
    Inv cpuNum lordCpu l :=
  hrun.invariant (.new cpuNum lordCpu lordPid) fun _ _ _ hinv hstep => hinv.step hstep

/-- **The tables agree in every reachable state**, no call stops for a reason that the tables could give, and no task is shot onto a CPU that another one holds. -/
theorem tables_agree {cpuNum : Nat} (hcpu : cpuNum ≤ shootAreaSize) {lordCpu : Int} {lordPid : UInt32}
    {ops : List (Scheduler.Op ShootAnswer)} {l : FifoLord}
    (hrun : Runs ((fifo cpuNum).Step (fifo cpuNum).Clean) (Lord.new cpuNum lordCpu lordPid) ops l) :
    (l.rq.Nodup ∧ ∀ tid, tid ∈ l.rq ↔ l.status tid = some .queued) ∧
    (∀ tid task, l.aliveTasks tid = some task → task.state = .onCpu →
      ∃ cpu : Nat, task.cpuId = cpu ∧ cpu < cpuNum ∧ (cpu : Int) ≠ lordCpu ∧ l.cpuStates.cell cpu = .cos) ∧
    (∀ tid tid' task task', l.aliveTasks tid = some task → l.aliveTasks tid' = some task' →
      task.state = .onCpu → task'.state = .onCpu → task.cpuId = task'.cpuId → tid = tid') ∧
    (∀ answer l₁ r, (fifo cpuNum).assign answer l = .ok (l₁, r) → ∀ cpu pid, (cpu, pid) ∈ r.pairs →
      ∀ tid task, l.aliveTasks tid = some task → task.state = .onCpu → task.cpuId ≠ cpu) ∧
    (∀ answer, answer.Clean → ∃ l', (fifo cpuNum).schedule answer l = .ok l') ∧
    ∀ m stop, l.handle m = .error stop →
      stop = .sameNewThread ∨ stop = .deadBeforeNew ∨ stop = .preemptBeforeNew ∨ stop = .assertNotBlocked := by
  have hinv := inv_of_runs hrun
  refine ⟨⟨hinv.sound.tracks.nodup, hinv.sound.tracks.mem_iff⟩, ?_, hinv.exclusive, ?_, ?_, ?_⟩
  · intro tid task halive honCpu
    obtain ⟨cpu, hcpuId, hlt⟩ := hinv.sound.onCpu tid task halive honCpu
    exact ⟨cpu, hcpuId, hlt, hinv.held tid task cpu halive honCpu hcpuId⟩
  · intro answer l₁ r hassign cpu pid hpair tid task halive honCpu hcpuId
    have hplaced := (fifoDiscipline cpuNum).assigned hinv.sound hassign
    exact hinv.not_avail halive honCpu hcpuId (hplaced.avail cpu (List.mem_map.mpr ⟨_, hpair, rfl⟩))
  · intro answer hanswer
    obtain ⟨l₁, r, hassign, -⟩ := assign_placed hinv.sound answer
    exact (fifoDiscipline cpuNum).schedule_returns hcpu hinv.sound hassign hanswer
  · intro m stop herror
    rcases hinv.sound.handle_error herror with ⟨kind, -, hnext⟩ | ⟨-, -, hlost⟩
    · exact Lifecycle.next_error hnext
    · simp [hinv.cpuLost_eq_false] at hlost

theorem tables_agree_first :
    ∃ l : FifoLord, Runs ((fifo 2).Step (fifo 2).Clean) (Lord.new 2 0 1)
        [.msg ⟨10, 3, 1⟩, .schedule ⟨0, ∅⟩] l ∧
      l.status 10 = some .onCpu ∧ ∀ tid, tid ∈ l.rq ↔ l.status tid = some .queued := by
  have hrun : Runs ((fifo 2).Step (fifo 2).Clean) (Lord.new 2 0 1) [.msg ⟨10, 3, 1⟩, .schedule ⟨0, ∅⟩] _ :=
    .cons ⟨trivial, rfl⟩ (.cons ⟨fun _ => rfl, rfl⟩ .nil)
  exact ⟨_, hrun, rfl, (tables_agree (by decide) hrun).1.2⟩

end FifoLord

end CosUserspace
