import CosUserspace.Shinjuku.Assignment

/-!
# The task that is really on a CPU

Here the kernel is taken at its word: every shot succeeds, and each shot onto a CPU is followed by one departure message of its task, in the order of the shots on that CPU and after any delay. `pending` lists the shots on a CPU whose departure message has not been consumed; the last of them is the task that the lord has placed there. Its record is lost when a task that was displaced reports with BLOCKED, DEAD or PREEMPT: the handler writes the record of the CPU without asking whose it is. `records_kept_iff` says that nothing else loses it.
-/

namespace CosUserspace

open Shinjuku

/-- A lord, and for each CPU the shots whose departure message is still to come. -/
structure Placements where
  lord : ShinjukuLord
  pending : Nat → List UInt32

namespace Placements

def init (cpuNum : Nat) (lordCpu : Int) (lordPid : UInt32) : Placements :=
  ⟨.new cpuNum lordCpu lordPid, fun _ => []⟩

/-- The message types that report a departure from a CPU. -/
def isDeparture : MsgType → Bool
  | .blocked | .dead | .preempt | .cosPreempt => true
  | .runnable | .new | .newBlocked => false

/-- The CPU that the task of a departure message is on. -/
def departs (m : CosMsg) (l : ShinjukuLord) : Option Nat :=
  match MsgType.ofCode m.type, l.aliveTasks m.pid.toUInt32 with
  | some kind, some task => if isDeparture kind ∧ task.state = .onCpu then some task.cpuId.toNat else none
  | _, _ => none

/-- The tasks that a round shoots onto `cpu`. -/
def shotsOn (r : Round Shinjuku.CpuState) (cpu : Nat) : List UInt32 :=
  (r.pairs.filter fun shot => shot.1 = cpu).map Prod.snd

/-- Those of them that take. -/
def tookOn (answer : ShootAnswer) (r : Round Shinjuku.CpuState) (cpu : Nat) : List UInt32 :=
  if answer.Took cpu then shotsOn r cpu else []

/-- The pending shots after a call. -/
def pendingAfter (cpuNum : Nat) (s : Placements) : Scheduler.Op ScheduleInput → Nat → List UInt32
  | .msg m =>
    match departs m s.lord with
    | some cpu => Function.update s.pending cpu (s.pending cpu).tail
    | none => s.pending
  | .schedule input =>
    match (shinjuku cpuNum).assign input s.lord with
    | .ok (_, r) => fun cpu => s.pending cpu ++ shotsOn r cpu
    | .error _ => s.pending

/-- The messages of such a kernel: a departure is that of the first pending shot on its CPU, COS_PREEMPT comes only after a later shot there, RUNNABLE only for a Blocked task, and every shot succeeds. -/
def Allowed (s : Placements) : Scheduler.Op ScheduleInput → Prop
  | .msg m =>
    (match departs m s.lord with
      | some cpu => (s.pending cpu).head? = some m.pid.toUInt32 ∧
          (MsgType.ofCode m.type = some .cosPreempt → 2 ≤ (s.pending cpu).length)
      | none => True) ∧
    (MsgType.ofCode m.type = some .runnable → s.lord.status m.pid.toUInt32 = some .blocked)
  | .schedule input => input.answer.Success

def Step (cpuNum : Nat) (s : Placements) (op : Scheduler.Op ScheduleInput) (s' : Placements) : Prop :=
  s.Allowed op ∧ (shinjuku cpuNum).perform op s.lord = .ok s'.lord ∧ s'.pending = s.pendingAfter cpuNum op

/-- The task placed last on a CPU is the one its record names, and no round displaces it within its time slice. -/
def RecordsKept (cpuNum : Nat) (s : Placements) : Prop :=
  ∀ cpu < cpuNum, ∀ tid, (s.pending cpu).getLast? = some tid →
    s.lord.cpuStates.cell cpu = ⟨.cos, tid⟩ ∧
    ∀ input l₁ r, (shinjuku cpuNum).assign input s.lord = .ok (l₁, r) → cpu ∈ r.pairs.map Prod.fst →
      ∃ task, s.lord.aliveTasks tid = some task ∧ ShinjukuLord.preemptable input task = .ok true

/-- A BLOCKED, DEAD or PREEMPT message about a task that is OnCpu finds the record of its CPU still naming the task. -/
def Current (s : Placements) : Scheduler.Op ScheduleInput → Prop
  | .msg m =>
    ∀ cpu, departs m s.lord = some cpu → MsgType.ofCode m.type ≠ some .cosPreempt →
      (s.lord.cpuStates.cell cpu).pid = m.pid.toUInt32
  | .schedule _ => True

/-! ### Departures and shots -/

theorem departs_eq_some {m : CosMsg} {l : ShinjukuLord} {cpu : Nat} (h : departs m l = some cpu) :
    ∃ kind task, MsgType.ofCode m.type = some kind ∧ isDeparture kind = true ∧
      l.aliveTasks m.pid.toUInt32 = some task ∧ task.state = .onCpu ∧ task.cpuId.toNat = cpu := by
  unfold departs at h
  split at h
  · rename_i kind task hkind halive
    split at h
    · rename_i hdeparts
      exact ⟨kind, task, hkind, hdeparts.1, halive, hdeparts.2, Option.some.inj h⟩
    · cases h
  · cases h

theorem mem_shotsOn {r : Round Shinjuku.CpuState} {cpu : Nat} {tid : UInt32} :
    tid ∈ shotsOn r cpu ↔ (cpu, tid) ∈ r.pairs := by
  simp [shotsOn]

theorem shotsOn_eq {r : Round Shinjuku.CpuState} (hnodup : (r.pairs.map Prod.fst).Nodup) {cpu : Nat}
    {tid : UInt32} (hpair : (cpu, tid) ∈ r.pairs) : shotsOn r cpu = [tid] := by
  have hall : ∀ t ∈ shotsOn r cpu, t = tid := fun t ht =>
    congrArg Prod.snd (List.inj_on_of_nodup_map hnodup (mem_shotsOn.mp ht) hpair rfl)
  have hone : (shotsOn r cpu).Nodup := by
    refine List.Nodup.map_on (fun shot hshot shot' hshot' _ => ?_) ((List.Nodup.of_map _ hnodup).filter _)
    rw [List.mem_filter] at hshot hshot'
    apply List.inj_on_of_nodup_map hnodup hshot.1 hshot'.1
    exact (of_decide_eq_true hshot.2).trans (of_decide_eq_true hshot'.2).symm
  have hmem : tid ∈ shotsOn r cpu := mem_shotsOn.mpr hpair
  exact List.perm_singleton.mp ((List.perm_ext_iff_of_nodup hone (List.nodup_singleton tid)).mpr fun t =>
    ⟨fun ht => List.mem_singleton.mpr (hall t ht), fun ht => List.mem_singleton.mp ht ▸ hmem⟩)

theorem shotsOn_of_notMem {r : Round Shinjuku.CpuState} {cpu : Nat} (hmem : cpu ∉ r.pairs.map Prod.fst) :
    shotsOn r cpu = [] :=
  List.eq_nil_iff_forall_not_mem.mpr fun _ ht => hmem (List.mem_map.mpr ⟨_, mem_shotsOn.mp ht, rfl⟩)

theorem tookOn_of_success {answer : ShootAnswer} (hsuccess : answer.Success) (r : Round Shinjuku.CpuState) (cpu : Nat) :
    tookOn answer r cpu = shotsOn r cpu :=
  if_pos (hsuccess.took cpu)

theorem mem_tookOn {answer : ShootAnswer} {r : Round Shinjuku.CpuState} {cpu : Nat} {tid : UInt32} :
    tid ∈ tookOn answer r cpu ↔ answer.Took cpu ∧ (cpu, tid) ∈ r.pairs := by
  unfold tookOn
  split
  · rename_i htook
    rw [mem_shotsOn]
    exact ⟨fun hmem => ⟨htook, hmem⟩, And.right⟩
  · rename_i htook
    exact ⟨fun hmem => absurd hmem List.not_mem_nil, fun hmem => absurd hmem.1 htook⟩

/-- After a call the record of a CPU names the task of the shot that took there, if there was one. -/
theorem cell_of_shot {now : UInt64} {avail : Nat → Prop} {answer : ShootAnswer} {l l' : ShinjukuLord}
    {r : Round Shinjuku.CpuState}
    (hshot : Shot now (fun tid => (⟨.cos, tid⟩ : Shinjuku.CpuState)) (fun cpu => l.cpuStates.cell cpu) avail answer
      l l' r) (cpu : Nat) :
    tookOn answer r cpu = [] ∧ l'.cpuStates.cell cpu = l.cpuStates.cell cpu ∨
    ∃ pid, tookOn answer r cpu = [pid] ∧ l'.cpuStates.cell cpu = ⟨.cos, pid⟩ := by
  by_cases hmem : cpu ∈ r.pairs.map Prod.fst
  · obtain ⟨⟨cpu, pid⟩, hpair, rfl⟩ := List.mem_map.mp hmem
    have hcell := hshot.shotCpu cpu pid hpair
    by_cases htook : answer.Took cpu
    · rw [if_pos htook] at hcell
      exact .inr ⟨pid, (if_pos htook).trans (shotsOn_eq hshot.cpus_nodup hpair), hcell⟩
    · rw [if_neg htook] at hcell
      exact .inl ⟨if_neg htook, hcell⟩
  · have hnone : tookOn answer r cpu = [] := by
      unfold tookOn
      rw [shotsOn_of_notMem hmem, ite_self]
    exact .inl ⟨hnone, hshot.otherCpu cpu hmem⟩

/-! ### The pending shots are the tasks that are OnCpu -/

structure Inv (cpuNum : Nat) (s : Placements) : Prop where
  sound : s.lord.Sound cpuNum
  mem_iff : ∀ cpu tid, tid ∈ s.pending cpu ↔
    ∃ task, s.lord.aliveTasks tid = some task ∧ task.state = .onCpu ∧ task.cpuId = cpu
  nodup : ∀ cpu, (s.pending cpu).Nodup

/-- The record of a CPU names the task placed there last. -/
def Named (s : Placements) : Prop :=
  ∀ cpu tid, (s.pending cpu).getLast? = some tid → s.lord.cpuStates.cell cpu = ⟨.cos, tid⟩

namespace Inv

variable {cpuNum : Nat} {s s' : Placements} {m : CosMsg} {kind : MsgType} {next : Option RunState} {cpu : Nat}

theorem init (cpuNum : Nat) (lordCpu : Int) (lordPid : UInt32) :
    Inv cpuNum (Placements.init cpuNum lordCpu lordPid) where
  sound := .new ..
  mem_iff := by simp [Placements.init, Lord.new]
  nodup := by simp [Placements.init]

theorem cpu_unique (hinv : Inv cpuNum s) {tid : UInt32} {c : Nat} (hmem : tid ∈ s.pending cpu)
    (hmem' : tid ∈ s.pending c) : c = cpu := by
  obtain ⟨task, halive, -, hcpu⟩ := (hinv.mem_iff cpu tid).mp hmem
  obtain ⟨task', halive', -, hcpu'⟩ := (hinv.mem_iff c tid).mp hmem'
  obtain rfl := Option.some.inj (halive.symm.trans halive')
  exact Int.ofNat_inj.mp (hcpu'.symm.trans hcpu)

theorem cpuId_eq (hinv : Inv cpuNum s) (hdeparts : departs m s.lord = some cpu) :
    ∃ kind task, MsgType.ofCode m.type = some kind ∧ isDeparture kind = true ∧
      s.lord.aliveTasks m.pid.toUInt32 = some task ∧ task.state = .onCpu ∧ task.cpuId = cpu := by
  obtain ⟨kind, task, hkind, hdeparture, halive, honCpu, hcpu⟩ := departs_eq_some hdeparts
  obtain ⟨c, hc, -⟩ := hinv.sound.onCpu _ task halive honCpu
  rw [hc, Int.toNat_natCast] at hcpu
  exact ⟨kind, task, hkind, hdeparture, halive, honCpu, hc.trans (congrArg Nat.cast hcpu)⟩

/-- An allowed message that is no departure is not about a task that is OnCpu. -/
theorem not_onCpu (hallowed : s.Allowed (.msg m)) (hdeparts : departs m s.lord = none)
    (hkind : MsgType.ofCode m.type = some kind)
    (hnext : Lifecycle.next kind (s.lord.status m.pid.toUInt32) = .ok next) {task : Task UInt64}
    (halive : s.lord.aliveTasks m.pid.toUInt32 = some task) : task.state ≠ .onCpu := by
  intro honCpu
  have hstatus := Lord.status_of_aliveTasks halive
  rw [honCpu] at hstatus
  cases kind with
  | runnable =>
    have hblocked := hallowed.2 hkind
    rw [hstatus] at hblocked
    cases hblocked
  | new | newBlocked => simp [hstatus, Lifecycle.next] at hnext
  | blocked | dead | preempt | cosPreempt => simp [departs, hkind, halive, isDeparture, honCpu] at hdeparts

theorem other {tid : UInt32} (hinv : Inv cpuNum s) (hnext : next ≠ some .onCpu)
    (hstays : ∀ task, s.lord.aliveTasks tid = some task → task.state ≠ .onCpu) :
    Inv cpuNum { s with lord := s.lord.move kind tid next } where
  sound := hinv.sound.move hnext
  nodup := hinv.nodup
  mem_iff c t := by
    rw [hinv.mem_iff]
    constructor
    · rintro ⟨task, halive, honCpu, hcpu⟩
      have hne : t ≠ tid := fun heq => hstays task (heq ▸ halive) honCpu
      exact ⟨task, (Lord.aliveTasks_move_of_ne hne).trans halive, honCpu, hcpu⟩
    · rintro ⟨task, halive, honCpu, hcpu⟩
      exact ⟨task, (Lord.onCpu_of_move hnext halive honCpu).2, honCpu, hcpu⟩

theorem departure {tid : UInt32} (hinv : Inv cpuNum s) (hnext : next ≠ some .onCpu) {task : Task UInt64}
    (halive : s.lord.aliveTasks tid = some task) (hcpu : task.cpuId = cpu)
    (hhead : (s.pending cpu).head? = some tid) :
    Inv cpuNum ⟨s.lord.move kind tid next, Function.update s.pending cpu (s.pending cpu).tail⟩ := by
  obtain ⟨rest, hpending⟩ := List.head?_eq_some_iff.mp hhead
  have hnodup := hinv.nodup cpu
  rw [hpending] at hnodup
  obtain ⟨hnew, hrest⟩ := List.nodup_cons.mp hnodup
  have hold : ∀ c t, t ≠ tid →
      (t ∈ Function.update s.pending cpu (s.pending cpu).tail c ↔ t ∈ s.pending c) := by
    intro c t hne
    by_cases hc : c = cpu
    · subst hc
      simp [hpending, hne]
    · simp [hc]
  constructor
  case sound => exact hinv.sound.move hnext
  case nodup =>
    intro c
    by_cases hc : c = cpu
    · subst hc
      simpa [hpending] using hrest
    · simpa [hc] using hinv.nodup c
  case mem_iff =>
    intro c t
    by_cases hne : t = tid
    · subst hne
      dsimp only
      constructor
      · intro hmem
        by_cases hc : c = cpu
        · subst hc
          rw [Function.update_self, hpending, List.tail_cons] at hmem
          exact absurd hmem hnew
        · rw [Function.update_of_ne hc] at hmem
          exact absurd (hinv.cpu_unique (List.mem_of_mem_head? hhead) hmem) hc
      · rintro ⟨task', halive', honCpu', -⟩
        exact absurd rfl (Lord.onCpu_of_move hnext halive' honCpu').1
    · rw [hold c t hne, hinv.mem_iff]
      simp only [Lord.aliveTasks_move_of_ne hne]

theorem schedule (hinv : Inv cpuNum s) {input : ScheduleInput} {r : Round Shinjuku.CpuState}
    (hsound : s'.lord.Sound cpuNum)
    (hshot : Shot input.currentTime (fun tid => (⟨.cos, tid⟩ : Shinjuku.CpuState))
      (fun cpu => s.lord.cpuStates.cell cpu) (s.lord.Avail cpuNum input) input.answer s.lord s'.lord r)
    (hpending : ∀ cpu, s'.pending cpu = s.pending cpu ++ tookOn input.answer r cpu) : Inv cpuNum s' := by
  have hqueued : ∀ c t, t ∈ tookOn input.answer r c → s.lord.status t = some .queued := fun c t ht =>
    hshot.queued c t (mem_tookOn.mp ht).2
  constructor
  case sound => exact hsound
  case mem_iff =>
    intro c t
    rw [hpending, List.mem_append, hinv.mem_iff]
    constructor
    · rintro (⟨task, halive, honCpu, hcpu⟩ | hmem)
      · exact ⟨task, hshot.stays halive honCpu, honCpu, hcpu⟩
      · obtain ⟨task, halive, -⟩ := Lord.status_eq_some.mp (hqueued c t hmem)
        obtain ⟨htook, hpair⟩ := mem_tookOn.mp hmem
        exact ⟨_, hshot.shotTask c t hpair task halive, if_pos htook, rfl⟩
    · rintro ⟨task, halive, honCpu, hcpu⟩
      rcases hshot.onCpu_cases halive honCpu with ⟨c', hpair, htook, hc'⟩ | hbefore
      · obtain rfl : c' = c := Int.ofNat_inj.mp (hc'.symm.trans hcpu)
        exact .inr (mem_tookOn.mpr ⟨htook, hpair⟩)
      · exact .inl ⟨task, hbefore, honCpu, hcpu⟩
  case nodup =>
    intro c
    rw [hpending]
    have hone : (tookOn input.answer r c).Nodup := by
      rcases cell_of_shot hshot c with ⟨hnil, -⟩ | ⟨pid, hone, -⟩
      · rw [hnil]
        exact List.nodup_nil
      · rw [hone]
        exact List.nodup_singleton pid
    apply List.Nodup.append (hinv.nodup c) hone
    intro t hold hnew
    obtain ⟨task, halive, honCpu, -⟩ := (hinv.mem_iff c t).mp hold
    have hstatus := (Lord.status_of_aliveTasks halive).symm.trans (hqueued c t hnew)
    rw [honCpu] at hstatus
    cases hstatus

end Inv

namespace Named

variable {cpuNum : Nat} {s s' : Placements} {m : CosMsg} {kind : MsgType} {next : Option RunState} {cpu : Nat}

theorem other (hinv : Inv cpuNum s) (hnamed : s.Named)
    (hstays : ∀ task, s.lord.aliveTasks m.pid.toUInt32 = some task → task.state ≠ .onCpu) :
    Named { s with lord := s.lord.move kind m.pid.toUInt32 next } := fun c t hlast =>
  (hinv.sound.cpusAfter_cell_of_ne kind fun task halive honCpu => absurd honCpu (hstays task halive)).trans
    (hnamed c t hlast)

theorem departure (hinv : Inv cpuNum s) (hnamed : s.Named) {task : Task UInt64}
    (halive : s.lord.aliveTasks m.pid.toUInt32 = some task) (honCpu : task.state = .onCpu)
    (hcpu : task.cpuId = cpu) (hhead : (s.pending cpu).head? = some m.pid.toUInt32)
    (hcurrent : kind ≠ .cosPreempt → (s.lord.cpuStates.cell cpu).pid = m.pid.toUInt32) :
    Named ⟨s.lord.move kind m.pid.toUInt32 next, Function.update s.pending cpu (s.pending cpu).tail⟩ := by
  obtain ⟨rest, hpending⟩ := List.head?_eq_some_iff.mp hhead
  intro c t hlast
  dsimp only at hlast ⊢
  by_cases hc : c = cpu
  · subst hc
    rw [Function.update_self, hpending, List.tail_cons] at hlast
    have hlastBefore : (s.pending c).getLast? = some t := by
      rw [hpending, List.getLast?_cons, hlast, Option.getD_some]
    have hcell := hnamed c t hlastBefore
    have hnew : m.pid.toUInt32 ∉ rest := by
      have hnodup := hinv.nodup c
      rw [hpending] at hnodup
      exact (List.nodup_cons.mp hnodup).1
    have hne : t ≠ m.pid.toUInt32 := fun heq => hnew (heq ▸ List.mem_of_getLast? hlast)
    -- a later task is named, so the departure can only be a COS_PREEMPT
    obtain rfl : kind = .cosPreempt := by
      by_contra hkind
      have hpid := hcurrent hkind
      rw [hcell] at hpid
      exact hne hpid
    exact (Lord.cpusAfter_cell_self .cosPreempt halive honCpu hcpu).trans hcell
  · rw [Function.update_of_ne hc] at hlast
    exact (hinv.sound.cpusAfter_cell_other kind halive hcpu hc).trans (hnamed c t hlast)

theorem schedule (hnamed : s.Named) {input : ScheduleInput} (hsuccess : input.answer.Success)
    {r : Round Shinjuku.CpuState}
    (hshot : Shot input.currentTime (fun tid => (⟨.cos, tid⟩ : Shinjuku.CpuState))
      (fun cpu => s.lord.cpuStates.cell cpu) (s.lord.Avail cpuNum input) input.answer s.lord s'.lord r)
    (hpending : ∀ cpu, s'.pending cpu = s.pending cpu ++ shotsOn r cpu) : s'.Named := by
  intro c t hlast
  rw [hpending, ← tookOn_of_success hsuccess] at hlast
  rcases cell_of_shot hshot c with ⟨hnil, hcell⟩ | ⟨pid, hone, hcell⟩
  · rw [hnil, List.append_nil] at hlast
    exact hcell.trans (hnamed c t hlast)
  · rw [hone, List.getLast?_concat, Option.some.injEq] at hlast
    rw [hcell, hlast]

end Named

/-! ### Steps -/

inductive Effect (cpuNum : Nat) (s : Placements) : Scheduler.Op ScheduleInput → Placements → Prop
  | ignored {m : CosMsg} (hdeparts : departs m s.lord = none) : Effect cpuNum s (.msg m) s
  | other {m : CosMsg} {kind : MsgType} {next : Option RunState} (hnext : next ≠ some .onCpu)
      (hdeparts : departs m s.lord = none)
      (hstays : ∀ task, s.lord.aliveTasks m.pid.toUInt32 = some task → task.state ≠ .onCpu) :
      Effect cpuNum s (.msg m) { s with lord := s.lord.move kind m.pid.toUInt32 next }
  | departure {m : CosMsg} {kind : MsgType} {next : Option RunState} {cpu : Nat} {task : Task UInt64}
      (hkind : MsgType.ofCode m.type = some kind) (hdeparture : isDeparture kind = true)
      (hnext : next ≠ some .onCpu) (hdeparts : departs m s.lord = some cpu)
      (halive : s.lord.aliveTasks m.pid.toUInt32 = some task) (honCpu : task.state = .onCpu)
      (hcpu : task.cpuId = cpu) (hhead : (s.pending cpu).head? = some m.pid.toUInt32) :
      Effect cpuNum s (.msg m)
        ⟨s.lord.move kind m.pid.toUInt32 next, Function.update s.pending cpu (s.pending cpu).tail⟩
  | shot {input : ScheduleInput} {s' : Placements} {r : Round Shinjuku.CpuState} (hsuccess : input.answer.Success)
      (hsound : s'.lord.Sound cpuNum)
      (hshot : Shot input.currentTime (fun tid => (⟨.cos, tid⟩ : Shinjuku.CpuState))
        (fun cpu => s.lord.cpuStates.cell cpu) (s.lord.Avail cpuNum input) input.answer s.lord s'.lord r)
      (hpending : ∀ cpu, s'.pending cpu = s.pending cpu ++ shotsOn r cpu) : Effect cpuNum s (.schedule input) s'

variable {cpuNum : Nat} {s s' : Placements} {op : Scheduler.Op ScheduleInput}

theorem Inv.effect_of_step (hinv : Inv cpuNum s) (hstep : Step cpuNum s op s') : Effect cpuNum s op s' := by
  obtain ⟨hallowed, hok, hpending⟩ := hstep
  obtain ⟨lord', pending'⟩ := s'
  subst hpending
  cases op with
  | schedule input =>
    obtain ⟨hsound, l₁, r, hassign, hshot⟩ :=
      (shinjukuDiscipline cpuNum).shot hinv.sound (ShootAnswer.Success.clean hallowed) hok
    exact .shot hallowed hsound hshot fun cpu => by simp [pendingAfter, hassign]
  | msg m =>
    rcases hinv.sound.handle_ok hok with ⟨hnone, rfl⟩ | ⟨kind, next, hkind, hnext, -, rfl⟩
    · have hdeparts : departs m s.lord = none := by simp [departs, hnone]
      simp only [pendingAfter, hdeparts]
      exact .ignored hdeparts
    have hnextNe := Lifecycle.next_ne_onCpu hnext
    cases hdeparts : departs m s.lord with
    | none =>
      simp only [pendingAfter, hdeparts]
      exact .other hnextNe hdeparts fun task halive => not_onCpu hallowed hdeparts hkind hnext halive
    | some cpu =>
      obtain ⟨kind', task, hkind', hdeparture, halive, honCpu, hcpu⟩ := hinv.cpuId_eq hdeparts
      obtain rfl := Option.some.inj (hkind.symm.trans hkind')
      have hfirst := hallowed.1
      simp only [hdeparts] at hfirst
      simp only [pendingAfter, hdeparts]
      exact .departure hkind hdeparture hnextNe hdeparts halive honCpu hcpu hfirst.1

theorem Inv.step (hinv : Inv cpuNum s) (hstep : Step cpuNum s op s') : Inv cpuNum s' := by
  cases hinv.effect_of_step hstep with
  | ignored => exact hinv
  | other hnext _ hstays => exact hinv.other hnext hstays
  | departure _ _ hnext _ halive _ hcpu hhead => exact hinv.departure hnext halive hcpu hhead
  | shot hsuccess hsound hshot hpending =>
    exact hinv.schedule hsound hshot fun cpu => by rw [hpending, tookOn_of_success hsuccess]

theorem Named.step (hinv : Inv cpuNum s) (hnamed : s.Named) (hstep : Step cpuNum s op s')
    (hcurrent : s.Current op) : s'.Named := by
  cases hinv.effect_of_step hstep with
  | ignored => exact hnamed
  | other _ _ hstays => exact hnamed.other hinv hstays
  | departure hkind _ _ hdeparts halive honCpu hcpu hhead =>
    refine hnamed.departure hinv halive honCpu hcpu hhead fun hne => hcurrent _ hdeparts ?_
    rw [hkind, ne_eq, Option.some.injEq]
    exact hne
  | shot hsuccess _ hshot hpending => exact hnamed.schedule hsuccess hshot hpending

/-- A record that names the last task is COS, so the task is displaced only as a running one. -/
theorem Named.recordsKept (hinv : Inv cpuNum s) (hnamed : s.Named) : s.RecordsKept cpuNum := by
  intro cpu _ tid hlast
  have hcell := hnamed cpu tid hlast
  refine ⟨hcell, fun input l₁ r hassign hmem => ?_⟩
  have hplaced := (shinjukuDiscipline cpuNum).assigned hinv.sound hassign
  have havail : s.lord.Avail cpuNum input cpu := hplaced.avail cpu hmem
  obtain ⟨task, halive, -, hpreempt⟩ := havail.displaces (by rw [hcell])
  rw [hcell] at halive
  exact ⟨task, halive, hpreempt⟩

/-- A message about a displaced task that is not COS_PREEMPT loses the record of the task placed last. -/
theorem current_of_recordsKept (hinv : Inv cpuNum s) (hnamed : s.Named) (hstep : Step cpuNum s op s')
    (hkept : s'.RecordsKept cpuNum) : s.Current op := by
  cases hinv.effect_of_step hstep with
  | ignored hdeparts | other _ hdeparts =>
    intro cpu hcpu
    rw [hdeparts] at hcpu
    cases hcpu
  | shot => trivial
  | @departure m kind next cpu task hkind hdeparture _ hdeparts halive honCpu hcpu hhead =>
    intro cpu' hcpu' hne
    obtain rfl : cpu = cpu' := Option.some.inj (hdeparts.symm.trans hcpu')
    obtain ⟨rest, hpending⟩ := List.head?_eq_some_iff.mp hhead
    cases hrest : rest.getLast? with
    | none =>
      rw [List.getLast?_eq_none_iff.mp hrest] at hpending
      rw [hnamed cpu m.pid.toUInt32 (by rw [hpending]; rfl)]
    | some tid =>
      obtain ⟨c, hc, hlt⟩ := hinv.sound.onCpu _ task halive honCpu
      obtain rfl : c = cpu := Int.ofNat_inj.mp (hc.symm.trans hcpu)
      have hlast : (Function.update s.pending c (s.pending c).tail c).getLast? = some tid := by
        rw [Function.update_self, hpending]
        exact hrest
      have hcell := (hkept c hlt tid hlast).1
      have hwrite := (Lord.cpusAfter_cell_self kind halive honCpu hcpu).symm.trans hcell
      cases kind with
      | runnable | new | newBlocked => cases hdeparture
      | blocked | dead | preempt => cases hwrite
      | cosPreempt => exact absurd hkind hne

/-- **Along a run in which every shot succeeds and the departures come in order, the record of each CPU names the task placed there last exactly when every BLOCKED, DEAD or PREEMPT message about an OnCpu task finds its own record.** -/
theorem records_kept_iff (cpuNum : Nat) (lordCpu : Int) (lordPid : UInt32) (ops : List (Scheduler.Op ScheduleInput)) :
    (∀ before s, before <+: ops → Runs (Step cpuNum) (init cpuNum lordCpu lordPid) before s →
      s.RecordsKept cpuNum) ↔
    ∀ before op s s', before ++ [op] <+: ops → Runs (Step cpuNum) (init cpuNum lordCpu lordPid) before s →
      Step cpuNum s op s' → s.Current op := by
  refine Runs.forall_prefix_iff (I := fun s => Inv cpuNum s ∧ s.Named) ?_ ?_ ?_ ?_
  · exact ⟨.init cpuNum lordCpu lordPid, fun cpu tid hlast => by simp [init] at hlast⟩
  · exact fun s h => h.2.recordsKept h.1
  · exact fun s op s' h hstep hcurrent => ⟨h.1.step hstep, h.2.step h.1 hstep hcurrent⟩
  · exact fun s op s' h hstep hkept => current_of_recordsKept h.1 h.2 hstep hkept

/-- Task `10` is displaced from CPU `3` by task `11` and then blocks: the record of the CPU goes idle under task `11`. -/
theorem record_lost :
    ∃ s, Runs (Step 4) (init 4 0 1)
        [.msg ⟨10, 3, 1⟩, .schedule ⟨1000, .init, ⟨0, ∅⟩⟩, .msg ⟨11, 3, 2⟩,
          .schedule ⟨401000, .init, ⟨0, ∅⟩⟩, .msg ⟨10, 2, 3⟩] s ∧
      s.pending 3 = [11] ∧ s.lord.status 11 = some .onCpu ∧ s.lord.cpuStates.cell 3 = ⟨.idle, 0⟩ ∧
      ¬ s.RecordsKept 4 := by
  have hrun : Runs (Step 4) (init 4 0 1)
      [.msg ⟨10, 3, 1⟩, .schedule ⟨1000, .init, ⟨0, ∅⟩⟩, .msg ⟨11, 3, 2⟩,
        .schedule ⟨401000, .init, ⟨0, ∅⟩⟩, .msg ⟨10, 2, 3⟩] ⟨_, _⟩ :=
    .cons (t := ⟨_, _⟩) ⟨⟨trivial, by decide⟩, rfl, rfl⟩
      (.cons (t := ⟨_, _⟩) ⟨⟨rfl, rfl⟩, rfl, rfl⟩
        (.cons (t := ⟨_, _⟩) ⟨⟨trivial, by decide⟩, rfl, rfl⟩
          (.cons (t := ⟨_, _⟩) ⟨⟨rfl, rfl⟩, rfl, rfl⟩
            (.cons (t := ⟨_, _⟩) ⟨⟨by exact ⟨rfl, by decide⟩, by decide⟩, rfl, rfl⟩ .nil))))
  refine ⟨_, hrun, rfl, rfl, rfl, fun hkept => ?_⟩
  cases (hkept 3 (by decide) 11 rfl).1

end Placements

end CosUserspace
