import CosUserspace.Fifo.Leak

/-!
# CPUs that FifoLord loses for good

A CPU is lost when a shot onto it fails, since the record restored for it is COS, and when RUNNABLE or COS_PREEMPT takes its task away. This is a complete account of the marks: under any answers without a flagged error a CPU is marked COS exactly when a task holds it or it is lost, and a lost CPU stays marked, without a task and without a shot, for the rest of the run.
-/

namespace CosUserspace

namespace FifoLord

/-- The CPUs that a call loses. -/
def lostBy (cpuNum : Nat) (l : FifoLord) : Scheduler.Op ShootAnswer → List Nat
  | .msg m =>
    match l.aliveTasks m.pid.toUInt32 with
    | none => []
    | some task =>
      if task.state = .onCpu ∧ (MsgType.ofCode m.type = some .runnable ∨ MsgType.ofCode m.type = some .cosPreempt) then
        [task.cpuId.toNat]
      else []
  | .schedule answer =>
    match (fifo cpuNum).assign answer l with
    | .error _ => []
    | .ok (_, r) => (r.pairs.filter fun shot => ¬ answer.Took shot.1).map Prod.fst

/-- A lord, and the CPUs that it has lost. -/
structure Watched where
  lord : FifoLord
  lost : List Nat

/-- A task is OnCpu on `cpu`. -/
def Held (cpu : Nat) (l : FifoLord) : Prop :=
  ∃ tid task, l.aliveTasks tid = some task ∧ task.state = .onCpu ∧ task.cpuId = cpu

namespace Watched

def init (cpuNum : Nat) (lordCpu : Int) (lordPid : UInt32) : Watched := ⟨.new cpuNum lordCpu lordPid, []⟩

/-- A call under any answer that flags nothing with an error. -/
def Step (cpuNum : Nat) (s : Watched) (op : Scheduler.Op ShootAnswer) (s' : Watched) : Prop :=
  (fifo cpuNum).Step (fifo cpuNum).Clean s.lord op s'.lord ∧ s'.lost = s.lost ++ lostBy cpuNum s.lord op

theorem Step.of_ok {cpuNum : Nat} {s : Watched} {op : Scheduler.Op ShootAnswer} {lord : FifoLord}
    (hclean : (fifo cpuNum).Clean s.lord op) (hok : (fifo cpuNum).perform op s.lord = .ok lord) :
    Step cpuNum s op ⟨lord, s.lost ++ lostBy cpuNum s.lord op⟩ :=
  ⟨⟨hclean, hok⟩, rfl⟩

structure Inv (cpuNum : Nat) (lordCpu : Int) (s : Watched) : Prop where
  tables : FifoLord.Inv cpuNum lordCpu s.lord
  cos_iff : ∀ cpu < cpuNum, s.lord.cpuStates.cell cpu = .cos ↔ s.lord.Held cpu ∨ cpu ∈ s.lost
  apart : ∀ cpu ∈ s.lost, cpu < cpuNum ∧ ¬ s.lord.Held cpu

variable {cpuNum : Nat} {lordCpu : Int} {s s' : Watched} {op : Scheduler.Op ShootAnswer}

theorem Inv.init (cpuNum : Nat) (lordCpu : Int) (lordPid : UInt32) :
    Inv cpuNum lordCpu (init cpuNum lordCpu lordPid) where
  tables := .new cpuNum lordCpu lordPid
  cos_iff cpu hlt := by
    simp [Watched.init, Held, Lord.new, Buffer.fill_cell _ _ hlt, CpuRecord.idle]
  apart cpu hmem := by cases hmem

/-! ### Messages -/

section Message

variable {m : CosMsg} {kind : MsgType} {next : Option RunState} {cpu : Nat}

/-- The task of the message is on `cpu`. -/
def Leaves (m : CosMsg) (cpu : Nat) (l : FifoLord) : Prop :=
  ∃ task, l.aliveTasks m.pid.toUInt32 = some task ∧ task.state = .onCpu ∧ task.cpuId = cpu

theorem mem_lostBy_msg (hsound : s.lord.Sound cpuNum) (hkind : MsgType.ofCode m.type = some kind) :
    cpu ∈ lostBy cpuNum s.lord (.msg m) ↔ Leaves m cpu s.lord ∧ (kind = .runnable ∨ kind = .cosPreempt) := by
  cases halive : s.lord.aliveTasks m.pid.toUInt32 with
  | none => simp [lostBy, Leaves, halive]
  | some task =>
    by_cases honCpu : task.state = .onCpu
    · obtain ⟨c, hc, -⟩ := hsound.onCpu _ task halive honCpu
      by_cases hloses : kind = .runnable ∨ kind = .cosPreempt
      · simp only [lostBy, Leaves, halive, honCpu, hkind, hloses, hc, Option.some.injEq, exists_eq_left', and_true,
          true_and, if_true, List.mem_singleton, Int.toNat_natCast]
        rw [Int.ofNat_inj]
        exact eq_comm
      · simp [lostBy, Leaves, halive, honCpu, hkind, hloses]
    · simp [lostBy, Leaves, halive, honCpu]

/-- Where the task of the message is not, a message changes neither the record nor the holder. -/
theorem held_move_of_not_leaves (kind : MsgType) (hinv : Inv cpuNum lordCpu s) (hnext : next ≠ some .onCpu)
    (hstays : ¬ Leaves m cpu s.lord) :
    (s.lord.move kind m.pid.toUInt32 next).cpuStates.cell cpu = s.lord.cpuStates.cell cpu ∧
      (Held cpu (s.lord.move kind m.pid.toUInt32 next) ↔ s.lord.Held cpu) := by
  refine ⟨hinv.tables.sound.cpusAfter_cell_of_ne kind fun task halive honCpu hcpu => hstays ⟨task, halive, honCpu, hcpu⟩,
    ?_, ?_⟩
  · rintro ⟨tid, task, halive, honCpu, hcpu⟩
    exact ⟨tid, task, (Lord.onCpu_of_move hnext halive honCpu).2, honCpu, hcpu⟩
  · rintro ⟨tid, task, halive, honCpu, hcpu⟩
    have hne : tid ≠ m.pid.toUInt32 := fun heq => hstays ⟨task, heq ▸ halive, honCpu, hcpu⟩
    exact ⟨tid, task, (Lord.aliveTasks_move_of_ne hne).trans halive, honCpu, hcpu⟩

/-- The CPU that the task of the message leaves has no holder any more. -/
theorem not_held_move_of_leaves (kind : MsgType) (hinv : Inv cpuNum lordCpu s) (hnext : next ≠ some .onCpu)
    (hleaves : Leaves m cpu s.lord) :
    ¬ Held cpu (s.lord.move kind m.pid.toUInt32 next) := by
  rintro ⟨tid, task, halive, honCpu, hcpu⟩
  obtain ⟨old, hold, holdCpu, hcpu'⟩ := hleaves
  obtain ⟨hne, hbefore⟩ := Lord.onCpu_of_move hnext halive honCpu
  exact hne (hinv.tables.exclusive tid _ task old hbefore hold honCpu holdCpu (hcpu.trans hcpu'.symm))

theorem Inv.handle (hinv : Inv cpuNum lordCpu s) {lord : FifoLord} (hok : s.lord.handle m = .ok lord) :
    Inv cpuNum lordCpu ⟨lord, s.lost ++ lostBy cpuNum s.lord (.msg m)⟩ := by
  have hsound := hinv.tables.sound
  have htables := hinv.tables.handle hok
  rcases hsound.handle_ok hok with ⟨hnone, rfl⟩ | ⟨kind, next, hkind, hnext, -, rfl⟩
  · have hlost : lostBy cpuNum s.lord (.msg m) = [] := by
      simp only [lostBy, hnone]
      split <;> simp
    rw [hlost, List.append_nil]
    exact hinv
  have honCpu := Lifecycle.next_ne_onCpu hnext
  refine ⟨htables, fun cpu hlt => ?_, fun cpu hmem => ?_⟩
  · have hlost : cpu ∈ s.lost ++ lostBy cpuNum s.lord (.msg m) ↔
        cpu ∈ s.lost ∨ Leaves m cpu s.lord ∧ (kind = .runnable ∨ kind = .cosPreempt) := by
      rw [List.mem_append, mem_lostBy_msg hsound hkind]
    by_cases hleaves : Leaves m cpu s.lord
    · obtain ⟨task, halive, hstate, hcpu⟩ := hleaves
      have hcell : (s.lord.move kind m.pid.toUInt32 next).cpuStates.cell cpu = cpuWrite kind .cos := by
        rw [← (hinv.tables.held _ task cpu halive hstate hcpu).2]
        exact Lord.cpusAfter_cell_self kind halive hstate hcpu
      have hold : cpu ∉ s.lost := fun hmem => (hinv.apart cpu hmem).2 ⟨_, task, halive, hstate, hcpu⟩
      have hholder := not_held_move_of_leaves kind hinv honCpu ⟨task, halive, hstate, hcpu⟩
      simp only [hlost, hholder, hold, false_or, hcell]
      have hleaves : Leaves m cpu s.lord := ⟨task, halive, hstate, hcpu⟩
      rw [Lord.status_of_aliveTasks halive, hstate] at hnext
      constructor
      · intro hmark
        refine ⟨hleaves, ?_⟩
        by_contra hother
        rw [not_or] at hother
        exact cpuWrite_ne_cos hnext hother.1 hother.2 _ hmark
      · rintro ⟨-, rfl | rfl⟩ <;> rfl
    · obtain ⟨hcell, hholder⟩ := held_move_of_not_leaves kind hinv honCpu hleaves
      simp only [hlost, hcell, hholder, hleaves, false_and, or_false]
      exact hinv.cos_iff cpu hlt
  · rw [List.mem_append, mem_lostBy_msg hsound hkind] at hmem
    rcases hmem with hmem | ⟨hleaves, -⟩
    · obtain ⟨hlt, hfree⟩ := hinv.apart cpu hmem
      have hstays : ¬ Leaves m cpu s.lord := fun ⟨task, h⟩ => hfree ⟨_, task, h⟩
      exact ⟨hlt, mt (held_move_of_not_leaves kind hinv honCpu hstays).2.mp hfree⟩
    · refine ⟨?_, not_held_move_of_leaves kind hinv honCpu hleaves⟩
      obtain ⟨task, halive, hstate, hcpu⟩ := hleaves
      obtain ⟨c, hc, hlt⟩ := hsound.onCpu _ task halive hstate
      exact Int.ofNat_inj.mp (hc.symm.trans hcpu) ▸ hlt

end Message

/-! ### Rounds -/

section Round

variable {answer : ShootAnswer} {lord l₁ : FifoLord} {r : Round Fifo.CpuState} {cpu : Nat}

theorem mem_lostBy_schedule (hassign : (fifo cpuNum).assign answer s.lord = .ok (l₁, r)) :
    cpu ∈ lostBy cpuNum s.lord (.schedule answer) ↔ ∃ tid, (cpu, tid) ∈ r.pairs ∧ ¬ answer.Took cpu := by
  simp [lostBy, hassign]

/-- After a round a CPU has a holder if it had one, or if a shot onto it took. -/
theorem held_schedule
    (hshot : Shot () (fun _ => Fifo.CpuState.cos) (fun _ => .cos) (s.lord.Avail cpuNum) answer s.lord lord r) :
    lord.Held cpu ↔ s.lord.Held cpu ∨ ∃ tid, (cpu, tid) ∈ r.pairs ∧ answer.Took cpu := by
  constructor
  · rintro ⟨tid, task, halive, honCpu, hcpu⟩
    rcases hshot.onCpu_cases halive honCpu with ⟨c, hpair, htook, hc⟩ | hbefore
    · obtain rfl : c = cpu := Int.ofNat_inj.mp (hc.symm.trans hcpu)
      exact .inr ⟨tid, hpair, htook⟩
    · exact .inl ⟨tid, task, hbefore, honCpu, hcpu⟩
  · rintro (⟨tid, task, halive, honCpu, hcpu⟩ | ⟨tid, hpair, htook⟩)
    · exact ⟨tid, task, hshot.stays halive honCpu, honCpu, hcpu⟩
    · obtain ⟨task, halive, -⟩ := Lord.status_eq_some.mp (hshot.queued cpu tid hpair)
      exact ⟨tid, _, hshot.shotTask cpu tid hpair task halive, if_pos htook, rfl⟩

theorem Inv.schedule (hinv : Inv cpuNum lordCpu s) (hanswer : answer.Clean)
    (hok : (fifo cpuNum).schedule answer s.lord = .ok lord) :
    Inv cpuNum lordCpu ⟨lord, s.lost ++ lostBy cpuNum s.lord (.schedule answer)⟩ := by
  obtain ⟨-, l₁, r, hassign, hshot⟩ := (fifoDiscipline cpuNum).shot hinv.tables.sound hanswer hok
  refine ⟨hinv.tables.schedule hanswer hok, fun cpu hlt => ?_, fun cpu hmem => ?_⟩
  · rw [held_schedule hshot, List.mem_append, mem_lostBy_schedule hassign]
    by_cases hcpu : cpu ∈ r.pairs.map Prod.fst
    · obtain ⟨⟨c, tid⟩, hpair, rfl⟩ := List.mem_map.mp hcpu
      have hcell : lord.cpuStates.cell c = .cos := (hshot.shotCpu c tid hpair).trans (ite_self _)
      refine ⟨fun _ => ?_, fun _ => hcell⟩
      by_cases htook : answer.Took c
      · exact .inl (.inr ⟨tid, hpair, htook⟩)
      · exact .inr (.inr ⟨tid, hpair, htook⟩)
    · have hnone : ∀ tid, (cpu, tid) ∉ r.pairs := fun tid hpair => hcpu (List.mem_map.mpr ⟨_, hpair, rfl⟩)
      simp only [hshot.otherCpu cpu hcpu, hnone, false_and, exists_false, or_false]
      exact hinv.cos_iff cpu hlt
  · rw [List.mem_append, mem_lostBy_schedule hassign] at hmem
    rw [held_schedule hshot, not_or]
    rcases hmem with hmem | ⟨tid, hpair, hfailed⟩
    · -- a lost CPU is marked, so no round shoots onto it
      obtain ⟨hlt, hfree⟩ := hinv.apart cpu hmem
      refine ⟨hlt, hfree, fun ⟨tid, hpair, _⟩ => (hshot.avail cpu tid hpair).2.2 ?_⟩
      exact (hinv.cos_iff cpu hlt).mpr (.inr hmem)
    · have havail := hshot.avail cpu tid hpair
      exact ⟨havail.1, fun hheld => havail.2.2 ((hinv.cos_iff cpu havail.1).mpr (.inl hheld)),
        fun ⟨_, _, htook⟩ => hfailed htook⟩

end Round

theorem Inv.step (hinv : Inv cpuNum lordCpu s) (hstep : Step cpuNum s op s') : Inv cpuNum lordCpu s' := by
  obtain ⟨⟨hclean, hok⟩, hlost⟩ := hstep
  obtain ⟨lord, lost⟩ := s'
  dsimp only at hok hlost
  subst hlost
  cases op with
  | msg m => exact hinv.handle hok
  | schedule answer => exact hinv.schedule hclean hok

theorem lost_of_runs {ops : List (Scheduler.Op ShootAnswer)} (hrun : Runs (Step cpuNum) s ops s') : s.lost <+: s'.lost :=
  hrun.invariant (P := fun t => s.lost <+: t.lost) (List.prefix_refl _) fun _ _ _ hprefix hstep =>
    hprefix.trans (hstep.2 ▸ List.prefix_append _ _)

end Watched

/-- **What every mark stands for**: in every reachable state a CPU is marked COS exactly when one task holds it or it is lost, never both; and a CPU once lost is marked, has no task and gets none, in every state after that. -/
theorem marked_iff_held_or_lost (cpuNum : Nat) (lordCpu : Int) (lordPid : UInt32) {ops : List (Scheduler.Op ShootAnswer)}
    {s : Watched} (hrun : Runs (Watched.Step cpuNum) (.init cpuNum lordCpu lordPid) ops s) :
    (∀ cpu < cpuNum, s.lord.cpuStates.cell cpu = .cos ↔
      (∃! tid, ∃ task, s.lord.aliveTasks tid = some task ∧ task.state = .onCpu ∧ task.cpuId = cpu) ∨ cpu ∈ s.lost) ∧
    ∀ cpu ∈ s.lost, ∀ more s', Runs (Watched.Step cpuNum) s more s' →
      s'.lord.cpuStates.cell cpu = .cos ∧ ¬ s'.lord.Held cpu ∧
      ∀ answer l₁ r, (fifo cpuNum).assign answer s'.lord = .ok (l₁, r) → cpu ∉ r.pairs.map Prod.fst := by
  have hinv_of : ∀ {ops s}, Runs (Watched.Step cpuNum) (.init cpuNum lordCpu lordPid) ops s →
      Watched.Inv cpuNum lordCpu s := fun hrun =>
    hrun.invariant (P := Watched.Inv cpuNum lordCpu) (.init cpuNum lordCpu lordPid) fun _ _ _ hinv hstep => hinv.step hstep
  have hinv := hinv_of hrun
  constructor
  · intro cpu hlt
    rw [hinv.cos_iff cpu hlt]
    refine or_congr_left ⟨?_, fun hholder => hholder.exists⟩
    rintro ⟨tid, task, halive, honCpu, hcpu⟩
    refine ⟨tid, ⟨task, halive, honCpu, hcpu⟩, ?_⟩
    rintro tid' ⟨task', halive', honCpu', hcpu'⟩
    exact hinv.tables.exclusive tid' tid task' task halive' halive honCpu' honCpu (hcpu'.trans hcpu.symm)
  · intro cpu hmem more s' hmore
    have hinv' := hinv_of (hrun.append hmore)
    have hmem' : cpu ∈ s'.lost := (Watched.lost_of_runs hmore).subset hmem
    obtain ⟨hlt, hfree⟩ := hinv'.apart cpu hmem'
    have hcos := (hinv'.cos_iff cpu hlt).mpr (.inr hmem')
    refine ⟨hcos, hfree, fun answer l₁ r hassign hcpu => ?_⟩
    have hplaced := (fifoDiscipline cpuNum).assigned hinv'.tables.sound hassign
    exact (hplaced.avail cpu hcpu).2.2 hcos

/-- The shot of task `10` onto CPU `1` fails: the task is not on it, and the CPU is lost. -/
theorem marked_iff_held_or_lost_one :
    ∃ s : Watched, Runs (Watched.Step 2) (.init 2 0 1) [.msg ⟨10, 3, 1⟩, .schedule ⟨1, ∅⟩] s ∧
      s.lost = [1] ∧ s.lord.cpuStates.cell 1 = .cos ∧ ¬ s.lord.Held 1 := by
  have hrun : Runs (Watched.Step 2) (.init 2 0 1) [.msg ⟨10, 3, 1⟩, .schedule ⟨1, ∅⟩] _ :=
    .cons (.of_ok trivial rfl) (.cons (.of_ok (fun _ => rfl) rfl) .nil)
  obtain ⟨hcos, hfree, -⟩ := (marked_iff_held_or_lost 2 0 1 hrun).2 1 (by decide) [] _ .nil
  exact ⟨_, hrun, by decide, hcos, hfree⟩

end FifoLord

end CosUserspace
