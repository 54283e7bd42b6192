import CosUserspace.Shinjuku.Placement

/-!
# The asserts of ShinjukuLord

The kernel keeps a ledger of what it has sent: the shots whose departure is still to come, the latest message about each task, and whether a BLOCKED, DEAD or PREEMPT departure has left a CPU since the last successful shot there. With the rules of the kernel in force the ledger decides the asserts: a preempted task is never Blocked and a CPU of type COS always names an OnCpu task, but COS_PREEMPT finds its CPU without the type COS exactly when such a departure came before it.
-/

namespace CosUserspace

open Shinjuku Placements

structure Ledger extends Placements where
  /-- the type of the latest message about a task -/
  latest : UInt32 → Option MsgType
  /-- a BLOCKED, DEAD or PREEMPT departure left the CPU since the last successful shot onto it -/
  left : Nat → Bool
  /-- the time of the last call of `schedule` -/
  clock : UInt64

namespace Ledger

def init (cpuNum : Nat) (lordCpu : Int) (lordPid : UInt32) : Ledger :=
  { Placements.init cpuNum lordCpu lordPid with latest := fun _ => none, left := fun _ => false, clock := 0 }

/-- The kernel may send a message of type `kind` about `tid`. -/
structure Sends (s : Ledger) (kind : MsgType) (tid : UInt32) : Prop where
  nonzero : tid ≠ 0
  first : kind = .new ∨ kind = .newBlocked ↔ s.latest tid = none
  not_dead : s.latest tid ≠ some .dead
  runnable : kind = .runnable → s.latest tid = some .blocked ∨ s.latest tid = some .newBlocked
  in_order : isDeparture kind = true → ∀ cpu, tid ∈ s.pending cpu → (s.pending cpu).head? = some tid
  preempt : kind = .preempt ∨ kind = .cosPreempt → ∃ cpu, tid ∈ s.pending cpu
  displaced : kind = .cosPreempt → ∀ cpu, tid ∈ s.pending cpu → 2 ≤ (s.pending cpu).length

def Allowed (s : Ledger) : Scheduler.Op ScheduleInput → Prop
  | .msg m => ∀ kind, MsgType.ofCode m.type = some kind → s.Sends kind m.pid.toUInt32
  | .schedule input => s.clock ≤ input.currentTime ∧ input.answer.Clean

/-- The ledger after a message of type `kind` about `tid`. -/
def record (kind : MsgType) (tid : UInt32) (s : Ledger) : Ledger :=
  { s with
    pending := fun cpu => if isDeparture kind then (s.pending cpu).erase tid else s.pending cpu
    latest := Function.update s.latest tid (some kind)
    left := fun cpu => s.left cpu || decide (isDeparture kind ∧ kind ≠ .cosPreempt ∧ tid ∈ s.pending cpu) }

/-- The ledger after a call of `schedule` that committed the round `r`. -/
def recordShots (input : ScheduleInput) (r : Round Shinjuku.CpuState) (s : Ledger) : Ledger :=
  { s with
    pending := fun cpu => s.pending cpu ++ tookOn input.answer r cpu
    left := fun cpu => s.left cpu && (tookOn input.answer r cpu).isEmpty
    clock := input.currentTime }

def after (cpuNum : Nat) (s : Ledger) : Scheduler.Op ScheduleInput → Ledger
  | .msg m =>
    match MsgType.ofCode m.type with
    | some kind => s.record kind m.pid.toUInt32
    | none => s
  | .schedule input =>
    match (shinjuku cpuNum).assign input s.lord with
    | .ok (_, r) => s.recordShots input r
    | .error _ => s

def Step (cpuNum : Nat) (s : Ledger) (op : Scheduler.Op ScheduleInput) (s' : Ledger) : Prop :=
  s.Allowed op ∧ ∃ lord, (shinjuku cpuNum).perform op s.lord = .ok lord ∧
    s' = { s.after cpuNum op with lord }

/-- A COS_PREEMPT message about a task on a CPU that a BLOCKED, DEAD or PREEMPT departure has left since the last successful shot. -/
def Cut (s : Ledger) : Scheduler.Op ScheduleInput → Prop
  | .msg m => MsgType.ofCode m.type = some .cosPreempt ∧
      ∃ cpu, m.pid.toUInt32 ∈ s.pending cpu ∧ s.left cpu = true
  | .schedule _ => False

/-- The asserts of the two handlers of a preemption and of `schedule`; the one of `schedule` dereferences the task. -/
def FailedAssert (stop : Stop) : Prop :=
  stop = .assertNotBlocked ∨ stop = .assertCpuCos ∨ stop = .assertOnCpu ∨ stop = .nullOwner

/-! ### The invariant -/

/-- The state of a task as its latest message leaves it. -/
def Agrees : Option MsgType → Option RunState → Prop
  | none, state | some .dead, state => state = none
  | some .blocked, state | some .newBlocked, state => state = some .blocked
  | some _, state => state = some .queued ∨ state = some .onCpu

structure Inv (cpuNum : Nat) (s : Ledger) : Prop where
  placed : Placements.Inv cpuNum s.toPlacements
  agrees : ∀ tid, Agrees (s.latest tid) (s.lord.status tid)
  named : ∀ cpu, s.left cpu = false → ∀ tid, (s.pending cpu).getLast? = some tid →
    s.lord.cpuStates.cell cpu = ⟨.cos, tid⟩
  unnamed : ∀ cpu < cpuNum, (s.lord.cpuStates.cell cpu).type = .cos → s.left cpu = false ∧ s.pending cpu ≠ []

theorem Inv.init (cpuNum : Nat) (lordCpu : Int) (lordPid : UInt32) :
    Inv cpuNum (Ledger.init cpuNum lordCpu lordPid) where
  placed := .init cpuNum lordCpu lordPid
  agrees tid := rfl
  named cpu _ tid hlast := by simp [Ledger.init, Placements.init] at hlast
  unnamed cpu hlt hcos := by
    simp [Ledger.init, Placements.init, Lord.new, Buffer.fill_cell _ _ hlt, CpuRecord.idle] at hcos

/-! ### Messages -/

variable {cpuNum : Nat} {s s' : Ledger} {kind : MsgType} {tid : UInt32} {next : Option RunState} {cpu : Nat}

theorem Agrees.ne_none {latest : Option MsgType} {state : Option RunState} (hagrees : Agrees latest state)
    (hnone : latest ≠ none) (hdead : latest ≠ some .dead) : state ≠ none := by
  intro hstate
  subst hstate
  rcases latest with _ | kind
  · exact hnone rfl
  · cases kind <;> simp [Agrees] at hagrees hdead

/-- A message takes the state of its task along with the ledger. -/
theorem Agrees.step {state : Option RunState} (hnext : Lifecycle.next kind state = .ok next)
    (hknown : kind = .new ∨ kind = .newBlocked ∨ state ≠ none) : Agrees (some kind) next := by
  cases state with
  | none =>
    cases kind with
    | new | newBlocked =>
      obtain rfl := Except.ok.inj hnext
      simp [Agrees]
    | runnable | blocked | dead | preempt | cosPreempt => simp at hknown
  | some state =>
    cases kind <;> cases state <;> simp [Lifecycle.next] at hnext <;> simp [Agrees, ← hnext]

namespace Inv

theorem status_of_pending (hinv : Inv cpuNum s) (hmem : tid ∈ s.pending cpu) : s.lord.status tid = some .onCpu := by
  obtain ⟨task, halive, honCpu, -⟩ := (hinv.placed.mem_iff cpu tid).mp hmem
  rw [Lord.status_of_aliveTasks halive, honCpu]

/-- About a task with a pending shot the kernel sends nothing but its departure. -/
theorem departs (hinv : Inv cpuNum s) (hsends : s.Sends kind tid) (hmem : tid ∈ s.pending cpu) :
    isDeparture kind = true := by
  have hagrees := hinv.agrees tid
  rw [hinv.status_of_pending hmem] at hagrees
  cases kind with
  | blocked | dead | preempt | cosPreempt => rfl
  | new | newBlocked =>
    rw [hsends.first.mp (by simp)] at hagrees
    cases hagrees
  | runnable =>
    rcases hsends.runnable rfl with hlatest | hlatest
    · rw [hlatest] at hagrees
      cases hagrees
    · rw [hlatest] at hagrees
      cases hagrees

theorem agrees_record (hinv : Inv cpuNum s) (hsends : s.Sends kind tid)
    (hnext : Lifecycle.next kind (s.lord.status tid) = .ok next) (t : UInt32) :
    Agrees (Function.update s.latest tid (some kind) t) ((s.lord.move kind tid next).status t) := by
  rw [Lord.status_move]
  by_cases ht : t = tid
  · subst ht
    rw [Function.update_self, Function.update_self]
    apply Agrees.step hnext
    by_cases hfirst : kind = .new ∨ kind = .newBlocked
    · exact hfirst.imp_right .inl
    · exact .inr (.inr ((hinv.agrees t).ne_none (fun hnone => hfirst (hsends.first.mpr hnone)) hsends.not_dead))
  · rw [Function.update_of_ne ht, Function.update_of_ne ht]
    exact hinv.agrees t

/-- A message about a task without a pending shot. -/
theorem other (hinv : Inv cpuNum s) (hsends : s.Sends kind tid)
    (hnext : Lifecycle.next kind (s.lord.status tid) = .ok next) (hidle : ∀ cpu, tid ∉ s.pending cpu) :
    Inv cpuNum { s.record kind tid with lord := s.lord.move kind tid next } := by
  have hstays : ∀ task, s.lord.aliveTasks tid = some task → task.state ≠ .onCpu := by
    intro task halive honCpu
    obtain ⟨cpu, hcpu, -⟩ := hinv.placed.sound.onCpu tid task halive honCpu
    exact hidle cpu ((hinv.placed.mem_iff cpu tid).mpr ⟨task, halive, honCpu, hcpu⟩)
  have hpending : (s.record kind tid).pending = s.pending := by
    funext c
    simp [record, List.erase_of_not_mem (hidle c)]
  have hleft : (s.record kind tid).left = s.left := by
    funext c
    simp [record, hidle c]
  have hcell : ∀ c, (s.lord.move kind tid next).cpuStates.cell c = s.lord.cpuStates.cell c := fun c =>
    hinv.placed.sound.cpusAfter_cell_of_ne kind fun task halive honCpu => absurd honCpu (hstays task halive)
  constructor
  case placed =>
    show Placements.Inv cpuNum ⟨s.lord.move kind tid next, (s.record kind tid).pending⟩
    rw [hpending]
    exact hinv.placed.other (Lifecycle.next_ne_onCpu hnext) hstays
  case agrees => exact hinv.agrees_record hsends hnext
  case named =>
    intro c hc t hlast
    dsimp only at hc hlast ⊢
    rw [hleft] at hc
    rw [hpending] at hlast
    rw [hcell]
    exact hinv.named c hc t hlast
  case unnamed =>
    intro c hlt hcos
    dsimp only at hcos ⊢
    rw [hcell] at hcos
    rw [hleft, hpending]
    exact hinv.unnamed c hlt hcos

/-- A departure takes the first pending shot off its CPU. -/
theorem pending_record (hinv : Inv cpuNum s) (hsends : s.Sends kind tid) (hmem : tid ∈ s.pending cpu) :
    (s.record kind tid).pending = Function.update s.pending cpu (s.pending cpu).tail := by
  have hdeparture := hinv.departs hsends hmem
  obtain ⟨rest, hrest⟩ := List.head?_eq_some_iff.mp (hsends.in_order hdeparture cpu hmem)
  funext c
  by_cases hc : c = cpu
  · subst hc
    simp [record, hdeparture, hrest]
  · have hother : tid ∉ s.pending c := fun hmem' => hc (hinv.placed.cpu_unique hmem hmem')
    simp [record, hc, List.erase_of_not_mem hother]

theorem left_record (hinv : Inv cpuNum s) (hmem : tid ∈ s.pending cpu) {c : Nat} (hc : c ≠ cpu ∨ kind = .cosPreempt) :
    (s.record kind tid).left c = s.left c := by
  have hnot : ¬ (isDeparture kind = true ∧ kind ≠ .cosPreempt ∧ tid ∈ s.pending c) := by
    intro h
    rcases hc with hne | hkind
    · exact hne (hinv.placed.cpu_unique hmem h.2.2)
    · exact h.2.1 hkind
  simp [record, hnot]

/-- Only COS_PREEMPT spares the record of the CPU. -/
theorem spares_record (hdeparture : isDeparture kind = true) (hmem : tid ∈ s.pending cpu) :
    kind = .cosPreempt ∨ (s.record kind tid).left cpu = true ∧
      (cpuWrite kind (s.lord.cpuStates.cell cpu)).type ≠ .cos := by
  cases kind with
  | runnable | new | newBlocked => cases hdeparture
  | blocked | dead | preempt =>
    exact .inr ⟨by simp [record, isDeparture, hmem], by simp [cpuWrite, CpuRecord.idle, CpuRecord.takenByCfs]⟩
  | cosPreempt => exact .inl rfl

/-- The departure of the first pending shot of a CPU. -/
theorem departure (hinv : Inv cpuNum s) (hsends : s.Sends kind tid)
    (hnext : Lifecycle.next kind (s.lord.status tid) = .ok next) (hmem : tid ∈ s.pending cpu) :
    Inv cpuNum { s.record kind tid with lord := s.lord.move kind tid next } := by
  have hdeparture := hinv.departs hsends hmem
  have hhead := hsends.in_order hdeparture cpu hmem
  obtain ⟨rest, hrest⟩ := List.head?_eq_some_iff.mp hhead
  obtain ⟨task, halive, honCpu, hcpu⟩ := (hinv.placed.mem_iff cpu tid).mp hmem
  have hpending := hinv.pending_record hsends hmem
  have hself : (s.lord.move kind tid next).cpuStates.cell cpu = cpuWrite kind (s.lord.cpuStates.cell cpu) :=
    Lord.cpusAfter_cell_self kind halive honCpu hcpu
  have hother : ∀ c, c ≠ cpu → (s.lord.move kind tid next).cpuStates.cell c = s.lord.cpuStates.cell c := fun _ =>
    hinv.placed.sound.cpusAfter_cell_other kind halive hcpu
  have hkind := spares_record hdeparture hmem
  constructor
  case placed =>
    show Placements.Inv cpuNum ⟨s.lord.move kind tid next, (s.record kind tid).pending⟩
    rw [hpending]
    exact hinv.placed.departure (Lifecycle.next_ne_onCpu hnext) halive hcpu hhead
  case agrees => exact hinv.agrees_record hsends hnext
  case named =>
    intro c hc t hlast
    dsimp only at hc hlast ⊢
    rw [hpending] at hlast
    by_cases hne : c = cpu
    · subst hne
      obtain rfl : kind = .cosPreempt := hkind.resolve_right fun h => by simp [h.1] at hc
      rw [hinv.left_record hmem (.inr rfl)] at hc
      rw [Function.update_self, hrest, List.tail_cons] at hlast
      rw [hself]
      apply hinv.named c hc t
      rw [hrest, List.getLast?_cons, hlast, Option.getD_some]
    · rw [Function.update_of_ne hne] at hlast
      rw [hinv.left_record hmem (.inl hne)] at hc
      rw [hother c hne]
      exact hinv.named c hc t hlast
  case unnamed =>
    intro c hlt hcos
    dsimp only at hcos ⊢
    rw [hpending]
    by_cases hne : c = cpu
    · subst hne
      rw [hself] at hcos
      obtain rfl : kind = .cosPreempt := hkind.resolve_right fun h => h.2 hcos
      have hlater := hsends.displaced rfl c hmem
      rw [hrest, List.length_cons] at hlater
      rw [hinv.left_record hmem (.inr rfl), Function.update_self, hrest, List.tail_cons]
      refine ⟨(hinv.unnamed c hlt hcos).1, fun hnil => ?_⟩
      rw [hnil, List.length_nil] at hlater
      omega
    · rw [hother c hne] at hcos
      rw [hinv.left_record hmem (.inl hne), Function.update_of_ne hne]
      exact hinv.unnamed c hlt hcos

/-! ### Shots -/

theorem shots (hinv : Inv cpuNum s) {input : ScheduleInput} {r : Round Shinjuku.CpuState} {lord : ShinjukuLord}
    (hsound : lord.Sound cpuNum)
    (hshot : Shot input.currentTime (fun tid => (⟨.cos, tid⟩ : Shinjuku.CpuState))
      (fun cpu => s.lord.cpuStates.cell cpu) (s.lord.Avail cpuNum input) input.answer s.lord lord r) :
    Inv cpuNum { s.recordShots input r with lord } := by
  constructor
  case placed =>
    have hplaced : Placements.Inv cpuNum ⟨lord, (s.recordShots input r).pending⟩ :=
      hinv.placed.schedule hsound hshot fun _ => rfl
    exact hplaced
  case agrees =>
    intro t
    show Agrees (s.latest t) (lord.status t)
    rcases hshot.status_cases t with heq | ⟨hqueued, honCpu⟩
    · rw [heq]
      exact hinv.agrees t
    · have hagrees := hinv.agrees t
      rw [hqueued] at hagrees
      rw [honCpu]
      rcases hlatest : s.latest t with _ | kind
      · simp [hlatest, Agrees] at hagrees
      · cases kind <;> simp [hlatest, Agrees] at hagrees ⊢
  case named =>
    intro c hc t hlast
    dsimp only [recordShots] at hc hlast ⊢
    rcases cell_of_shot hshot c with ⟨hnil, hcell⟩ | ⟨pid, hone, hcell⟩
    · rw [hnil, List.isEmpty_nil, Bool.and_true] at hc
      rw [hnil, List.append_nil] at hlast
      rw [hcell]
      exact hinv.named c hc t hlast
    · rw [hone, List.getLast?_concat, Option.some.injEq] at hlast
      rw [hcell, hlast]
  case unnamed =>
    intro c hlt hcos
    dsimp only [recordShots] at hcos ⊢
    rcases cell_of_shot hshot c with ⟨hnil, hcell⟩ | ⟨pid, hone, -⟩
    · rw [hcell] at hcos
      rw [hnil, List.isEmpty_nil, Bool.and_true, List.append_nil]
      exact hinv.unnamed c hlt hcos
    · simp [hone]

theorem step {op : Scheduler.Op ScheduleInput} (hinv : Inv cpuNum s) (hstep : Step cpuNum s op s') :
    Inv cpuNum s' := by
  obtain ⟨hallowed, lord, hok, rfl⟩ := hstep
  cases op with
  | schedule input =>
    obtain ⟨hsound, l₁, r, hassign, hshot⟩ := (shinjukuDiscipline cpuNum).shot hinv.placed.sound hallowed.2 hok
    have hafter : s.after cpuNum (.schedule input) = s.recordShots input r := by simp only [after, hassign]
    rw [hafter]
    exact hinv.shots hsound hshot
  | msg m =>
    rcases hinv.placed.sound.handle_ok hok with ⟨hnone, rfl⟩ | ⟨kind, next, hkind, hnext, -, rfl⟩
    · simp only [after, hnone]
      exact hinv
    simp only [after, hkind]
    have hsends := hallowed kind hkind
    by_cases hpending : ∃ cpu, m.pid.toUInt32 ∈ s.pending cpu
    · obtain ⟨cpu, hmem⟩ := hpending
      exact hinv.departure hsends hnext hmem
    · exact hinv.other hsends hnext (not_exists.mp hpending)

end Inv

theorem inv_of_runs {lordCpu : Int} {lordPid : UInt32} {ops : List (Scheduler.Op ScheduleInput)}
    (hrun : Runs (Step cpuNum) (Ledger.init cpuNum lordCpu lordPid) ops s) : Inv cpuNum s :=
  hrun.invariant (.init cpuNum lordCpu lordPid) fun _ _ _ hinv hstep => hinv.step hstep

/-! ### The asserts -/

/-- The assert of `schedule` holds: a CPU of type COS names the last of its pending shots. -/
theorem Inv.schedule_error (hinv : Inv cpuNum s) {input : ScheduleInput} (hanswer : input.answer.Clean) {stop : Stop}
    (herror : (shinjuku cpuNum).schedule input s.lord = .error stop) : ¬ FailedAssert stop := by
  have howned : ∀ cpu < cpuNum, (s.lord.cpuStates.cell cpu).type = .cos →
      ∃ task, s.lord.aliveTasks (s.lord.cpuStates.cell cpu).pid = some task ∧ task.state = .onCpu := by
    intro cpu hlt hcos
    obtain ⟨hleft, hsome⟩ := hinv.unnamed cpu hlt hcos
    have hlast := List.getLast?_eq_some_getLast hsome
    rw [hinv.named cpu hleft _ hlast]
    obtain ⟨task, halive, honCpu, -⟩ := (hinv.placed.mem_iff cpu _).mp (List.getLast_mem hsome)
    exact ⟨task, halive, honCpu⟩
  have hstop : stop = .outOfRange ∨ stop = .assertKey ∨ stop = .epistleSpins := by
    rcases (shinjukuDiscipline cpuNum).schedule_error hinv.placed.sound hanswer herror with hassign | hout
    · rcases ShinjukuLord.assign_error hinv.placed.sound howned hassign with hout | ⟨key, hget⟩
      · exact .inl hout
      · exact .inr (Epistle.get_error hget)
    · exact .inl hout
  rcases hstop with rfl | rfl | rfl <;> simp [FailedAssert]

/-- The only assert of a handler that fails is the one about the CPU. -/
theorem Inv.handle_error (hinv : Inv cpuNum s) {m : CosMsg} (hallowed : s.Allowed (.msg m)) {stop : Stop}
    (herror : s.lord.handle m = .error stop) (hassert : FailedAssert stop) :
    MsgType.ofCode m.type = some .cosPreempt ∧ s.lord.cpuLost m.pid.toUInt32 = true := by
  rcases hinv.placed.sound.handle_error herror with ⟨kind, hkind, hnext⟩ | ⟨-, hkind, hlost⟩
  · have hsends := hallowed kind hkind
    obtain rfl : stop = .assertNotBlocked := by
      rcases Lifecycle.next_error hnext with rfl | rfl | rfl | rfl
      · simp [FailedAssert] at hassert
      · simp [FailedAssert] at hassert
      · simp [FailedAssert] at hassert
      · rfl
    have hblocked : (kind = .preempt ∨ kind = .cosPreempt) ∧ s.lord.status m.pid.toUInt32 = some .blocked := by
      generalize s.lord.status m.pid.toUInt32 = state at hnext
      rcases state with _ | _ | _ | _ <;> cases kind <;> simp [Lifecycle.next] at hnext ⊢
    obtain ⟨cpu, hmem⟩ := hsends.preempt hblocked.1
    have honCpu := hinv.status_of_pending hmem
    rw [hblocked.2] at honCpu
    cases honCpu
  · exact ⟨hkind, hlost⟩

/-- The record of a pending task is lost exactly when another task has left its CPU since the last shot. -/
theorem Inv.cpuLost_iff (hinv : Inv cpuNum s) (hmem : tid ∈ s.pending cpu) :
    s.lord.cpuLost tid = true ↔ s.left cpu = true := by
  obtain ⟨task, halive, honCpu, hcpu⟩ := (hinv.placed.mem_iff cpu tid).mp hmem
  obtain ⟨c, hc, hlt⟩ := hinv.placed.sound.onCpu tid task halive honCpu
  obtain rfl : c = cpu := Int.ofNat_inj.mp (hc.symm.trans hcpu)
  have hlost : s.lord.cpuLost tid = true ↔ (s.lord.cpuStates.cell c).type ≠ .cos := by
    simp [Lord.cpuLost, halive, honCpu, hcpu, CpuRecord.isCos]
  rw [hlost]
  constructor
  · intro htype
    by_contra hleft
    rw [Bool.not_eq_true] at hleft
    have hsome := List.ne_nil_of_mem hmem
    apply htype
    rw [hinv.named c hleft _ (List.getLast?_eq_some_getLast hsome)]
  · intro hleft hcos
    rw [(hinv.unnamed c hlt hcos).1] at hleft
    cases hleft

theorem Inv.fails_of_cut (hinv : Inv cpuNum s) {m : CosMsg} (hcut : s.Cut (.msg m)) :
    s.lord.handle m = .error .assertCpuCos := by
  obtain ⟨hkind, cpu, hmem, hleft⟩ := hcut
  rw [hinv.placed.sound.handle_eq, hkind]
  simp [hinv.status_of_pending hmem, Lifecycle.next, (hinv.cpuLost_iff hmem).mpr hleft]

/-- **At every point of a run the asserts of the next call hold exactly when it is not a COS_PREEMPT message about a CPU that a BLOCKED, DEAD or PREEMPT departure has left since the last successful shot.** -/
theorem asserts_hold_iff (cpuNum : Nat) (lordCpu : Int) (lordPid : UInt32)
    {ops : List (Scheduler.Op ScheduleInput)} {s : Ledger}
    (hrun : Runs (Step cpuNum) (Ledger.init cpuNum lordCpu lordPid) ops s) {op : Scheduler.Op ScheduleInput}
    (hallowed : s.Allowed op) :
    (∀ stop, (shinjuku cpuNum).perform op s.lord = .error stop → ¬ FailedAssert stop) ↔ ¬ s.Cut op := by
  have hinv := inv_of_runs hrun
  cases op with
  | schedule input => exact ⟨fun _ hcut => hcut, fun _ stop herror => hinv.schedule_error hallowed.2 herror⟩
  | msg m =>
    constructor
    · intro hholds hcut
      exact hholds _ (hinv.fails_of_cut hcut) (.inr (.inl rfl))
    · intro hcut stop herror hassert
      obtain ⟨hkind, hlost⟩ := hinv.handle_error hallowed herror hassert
      obtain ⟨cpu, hmem⟩ := (hallowed _ hkind).preempt (.inr rfl)
      exact hcut ⟨hkind, cpu, hmem, (hinv.cpuLost_iff hmem).mp hlost⟩

/-! ### Runs that the kernel may produce -/

theorem sends_new (hzero : tid ≠ 0) (hfirst : s.latest tid = none) : s.Sends .new tid where
  nonzero := hzero
  first := by simp [hfirst]
  not_dead := by simp [hfirst]
  runnable h := by cases h
  in_order h := by cases h
  preempt h := by simp at h
  displaced h := by cases h

/-- The first pending shot of a CPU may be left, by COS_PREEMPT if another one follows it. -/
theorem Inv.sends_departure (hinv : Inv cpuNum s) (hzero : tid ≠ 0) {rest : List UInt32}
    (hpending : s.pending cpu = tid :: rest) (hdeparture : isDeparture kind = true)
    (hlater : kind = .cosPreempt → rest ≠ []) : s.Sends kind tid := by
  have hmem : tid ∈ s.pending cpu := by simp [hpending]
  have hagrees := hinv.agrees tid
  rw [hinv.status_of_pending hmem] at hagrees
  have hlatest : s.latest tid ≠ none ∧ s.latest tid ≠ some .dead := by
    constructor
    · intro heq
      rw [heq] at hagrees
      cases hagrees
    · intro heq
      rw [heq] at hagrees
      cases hagrees
  constructor
  case nonzero => exact hzero
  case first =>
    have hkind : ¬ (kind = .new ∨ kind = .newBlocked) := by
      rintro (rfl | rfl)
      · cases hdeparture
      · cases hdeparture
    exact iff_of_false hkind hlatest.1
  case not_dead => exact hlatest.2
  case runnable =>
    rintro rfl
    cases hdeparture
  case in_order =>
    intro _ c hc
    rw [hinv.placed.cpu_unique hmem hc, hpending, List.head?_cons]
  case preempt => exact fun _ => ⟨cpu, hmem⟩
  case displaced =>
    intro hcos c hc
    have hlength := List.length_pos_iff.mpr (hlater hcos)
    rw [hinv.placed.cpu_unique hmem hc, hpending, List.length_cons]
    omega

theorem allowed_of_sends {m : CosMsg} (hkind : MsgType.ofCode m.type = some kind)
    (hsends : s.Sends kind m.pid.toUInt32) : s.Allowed (.msg m) := by
  intro kind' hkind'
  obtain rfl : kind = kind' := Option.some.inj (hkind.symm.trans hkind')
  exact hsends

/-- The calls that shoot tasks `10`, `11` and `12` onto CPU `3`, each displacing the one before. -/
def threeShots : List (Scheduler.Op ScheduleInput) :=
  [.msg ⟨10, 3, 1⟩, .schedule ⟨1000, .init, ⟨0, ∅⟩⟩, .msg ⟨11, 3, 2⟩, .schedule ⟨401000, .init, ⟨0, ∅⟩⟩,
    .msg ⟨12, 3, 3⟩, .schedule ⟨801000, .init, ⟨0, ∅⟩⟩]

theorem threeShots_run : ∃ s, Runs (Step 4) (Ledger.init 4 0 1) threeShots s ∧ s.pending 3 = [10, 11, 12] ∧
    s.left 3 = false := by
  refine ⟨_, .cons ⟨allowed_of_sends rfl (sends_new (by decide) rfl), _, rfl, rfl⟩
      (.cons ⟨⟨by decide, fun _ => rfl⟩, _, rfl, rfl⟩
        (.cons ⟨allowed_of_sends rfl (sends_new (by decide) rfl), _, rfl, rfl⟩
          (.cons ⟨⟨by decide, fun _ => rfl⟩, _, rfl, rfl⟩
            (.cons ⟨allowed_of_sends rfl (sends_new (by decide) rfl), _, rfl, rfl⟩
              (.cons ⟨⟨by decide, fun _ => rfl⟩, _, rfl, rfl⟩ .nil))))), rfl, rfl⟩

/-- Three tasks are shot onto CPU `3`, the first of them blocks, and the report that the second was displaced fails the assert. -/
theorem assert_fails :
    ∃ s, Runs (Step 4) (Ledger.init 4 0 1) (threeShots ++ [.msg ⟨10, 2, 4⟩]) s ∧
      s.Allowed (.msg ⟨11, 7, 5⟩) ∧ (shinjuku 4).perform (.msg ⟨11, 7, 5⟩) s.lord = .error .assertCpuCos := by
  obtain ⟨s, hrun, hpending, -⟩ := threeShots_run
  have hinv := inv_of_runs hrun
  have hblocked : s.Sends .blocked 10 := hinv.sends_departure (by decide) hpending rfl nofun
  have honCpu : s.lord.status 10 = some .onCpu := hinv.status_of_pending (by rw [hpending]; decide)
  have hok : (shinjuku 4).perform (.msg ⟨10, 2, 4⟩) s.lord = .ok (s.lord.move .blocked 10 (some .blocked)) := by
    refine (hinv.placed.sound.handle_eq ⟨10, 2, 4⟩).trans ?_
    have hnext : Lifecycle.next .blocked (s.lord.status 10) = .ok (some .blocked) := by
      rw [honCpu]
      rfl
    have hkind : MsgType.ofCode 2 = some .blocked := rfl
    simp [hkind, hnext]
  have hafter : Runs (Step 4) (Ledger.init 4 0 1) (threeShots ++ [.msg ⟨10, 2, 4⟩])
      { s.record .blocked 10 with lord := s.lord.move .blocked 10 (some .blocked) } :=
    hrun.snoc ⟨allowed_of_sends rfl hblocked, _, hok, rfl⟩
  have hpendingAfter : (s.record .blocked 10).pending 3 = [11, 12] := by
    simp [record, isDeparture, hpending]
  have hleftAfter : (s.record .blocked 10).left 3 = true := by
    simp [record, isDeparture, hpending]
  have hinvAfter := inv_of_runs hafter
  refine ⟨_, hafter, ?_, ?_⟩
  · have hdeparture : isDeparture .cosPreempt = true := rfl
    exact allowed_of_sends rfl (hinvAfter.sends_departure (by decide) hpendingAfter hdeparture (by simp))
  · show Lord.handle ⟨11, 7, 5⟩ _ = _
    apply hinvAfter.fails_of_cut
    refine ⟨rfl, 3, ?_, hleftAfter⟩
    show (11 : UInt32) ∈ (s.record .blocked 10).pending 3
    rw [hpendingAfter]
    decide

/-- The same tasks, whose departures are all COS_PREEMPT. -/
theorem asserts_hold_displaced :
    ∃ s, Runs (Step 4) (Ledger.init 4 0 1) threeShots s ∧ s.Allowed (.msg ⟨10, 7, 4⟩) ∧
      ∀ stop, (shinjuku 4).perform (.msg ⟨10, 7, 4⟩) s.lord = .error stop → ¬ FailedAssert stop := by
  obtain ⟨s, hrun, hpending, hleft⟩ := threeShots_run
  have hdeparture : isDeparture .cosPreempt = true := rfl
  have hallowed : s.Allowed (.msg ⟨10, 7, 4⟩) :=
    allowed_of_sends rfl ((inv_of_runs hrun).sends_departure (by decide) hpending hdeparture (by simp))
  refine ⟨s, hrun, hallowed, (asserts_hold_iff 4 0 1 hrun hallowed).mpr ?_⟩
  rintro ⟨-, cpu, hmem, hcut⟩
  have hfirst : (10 : UInt32) ∈ s.pending 3 := by
    rw [hpending]
    decide
  rw [(inv_of_runs hrun).placed.cpu_unique hfirst hmem, hleft] at hcut
  cases hcut

end Ledger

end CosUserspace
