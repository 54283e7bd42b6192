import CosUserspace.Library.Waiting
import CosUserspace.Lord.Schedule

/-!
# Waiting for a CPU

A round of either lord is a walk over its run queue: the CPUs it finds serve the tasks it does not pass over, in queue order. As long as the kernel takes every shot, the lord with its messages and rounds is therefore a `Service`, and what holds of every such service holds of both lords.
-/

namespace CosUserspace

variable {θ κ ι : Type}

/-- A scheduler whose rounds are walks over the run queue. -/
structure Scheduler.FirstCome (S : Scheduler θ κ ι) where
  /-- how many CPUs a call of `schedule` finds -/
  servers : ι → Lord θ κ → Nat
  /-- the tasks that it does not pass over -/
  active : ι → UInt32 → Bool
  walk : ∀ {input l l₁ r}, l.Sound S.cpuNum → 0 ∉ l.rq → S.assign input l = .ok (l₁, r) →
    r.pairs.map Prod.snd = (l.rq.filter (active input)).take (servers input l) ∧
    l₁.rq = behind (active input) (servers input l) l.rq ++
      (ahead (active input) (servers input l) l.rq).filter (! active input ·)

/-- A lord, with what it has done for its tasks. -/
structure Serving (θ κ : Type) where
  lord : Lord θ κ
  /-- the tasks that messages put into the run queue, in their order -/
  enqueued : List UInt32
  /-- the tasks that were shot, in their order -/
  shot : List UInt32
  /-- the calls of `schedule` that found a CPU -/
  rounds : Nat

namespace Serving

def start (l : Lord θ κ) : Serving θ κ := ⟨l, [], [], 0⟩

/-- The queue as a service sees it. -/
def service (s : Serving θ κ) : Service UInt32 := ⟨s.lord.rq, s.shot, s.rounds⟩

variable [Inhabited θ] [CpuRecord κ] {S : Scheduler θ κ ι}

/-- The task of a message if the message puts it into the run queue. -/
def enters (m : CosMsg) (l l' : Lord θ κ) : List UInt32 :=
  if l.status m.pid.toUInt32 ≠ some .queued ∧ l'.status m.pid.toUInt32 = some .queued then [m.pid.toUInt32] else []

/-- A message about a thread other than `0`, or a round in which the kernel takes every shot. -/
inductive Step (F : S.FirstCome) (s : Serving θ κ) : Scheduler.Op ι → Serving θ κ → Prop
  | msg {m : CosMsg} {lord : Lord θ κ} (hzero : m.pid ≠ 0) (hok : s.lord.handle m = .ok lord) :
      Step F s (.msg m) { s with lord, enqueued := s.enqueued ++ enters m s.lord lord }
  | schedule {input : ι} {lord l₁ : Lord θ κ} {r : Round κ} (hanswer : (S.answer input).Success)
      (hassign : S.assign input s.lord = .ok (l₁, r)) (hok : S.schedule input s.lord = .ok lord) :
      Step F s (.schedule input)
        { s with
          lord
          shot := s.shot ++ r.pairs.map Prod.snd
          rounds := s.rounds + if F.servers input s.lord = 0 then 0 else 1 }

/-- The event of the queue that a call brings about. -/
def Causes (F : S.FirstCome) (s : Serving θ κ) : Scheduler.Op ι → Service.Event UInt32 → Prop
  | .msg _, .join _ => True
  | .msg m, .leave tid => tid = m.pid.toUInt32 ∧ s.lord.status tid = some .queued ∧
      (MsgType.ofCode m.type = some .blocked ∨ MsgType.ofCode m.type = some .dead)
  | .schedule input, .walk active _ => active = F.active input
  | .msg _, .walk _ _ | .schedule _, .join _ | .schedule _, .leave _ => False

end Serving

theorem Round.failed_of_success {answer : ShootAnswer} (hsuccess : answer.Success) (cpuNum : Nat) (r : Round κ) :
    r.failed cpuNum answer = [] := by
  simp [failed, hsuccess.1, hsuccess.2]

/-- Only BLOCKED and DEAD take a Queued task out of the queue. -/
theorem Lifecycle.leaves_queue {kind : MsgType} {next : Option RunState}
    (hnext : Lifecycle.next kind (some .queued) = .ok next) (hleaves : next ≠ some .queued) : kind = .blocked ∨ kind = .dead := by
  by_contra hneither
  rw [not_or] at hneither
  exact hleaves (Lifecycle.next_eq_queued (by decide) hnext hneither.1 hneither.2)

namespace Serving

variable [Inhabited θ] [CpuRecord κ] {S : Scheduler θ κ ι} {F : S.FirstCome} {s t : Serving θ κ} {op : Scheduler.Op ι}

/-- What the calls keep of the run queue. -/
structure Inv (S : Scheduler θ κ ι) (s : Serving θ κ) : Prop where
  sound : s.lord.Sound S.cpuNum
  zero : 0 ∉ s.lord.rq

omit [Inhabited θ] in
theorem pid_ne_zero {m : CosMsg} (hzero : m.pid ≠ 0) : m.pid.toUInt32 ≠ 0 := by
  intro heq
  apply hzero
  have hnat := congrArg UInt32.toNat heq
  rw [UInt16.toNat_toUInt32] at hnat
  exact UInt16.toNat_inj.mp hnat

theorem handle_service (hinv : Inv S s) {m : CosMsg} {lord : Lord θ κ} (hok : s.lord.handle m = .ok lord) :
    lord.rq = s.lord.rq ∧ enters m s.lord lord = [] ∨
    (m.pid.toUInt32 ∉ s.lord.rq ∧ lord.rq = s.lord.rq ++ [m.pid.toUInt32] ∧
      enters m s.lord lord = [m.pid.toUInt32]) ∨
    ((s.lord.status m.pid.toUInt32 = some .queued ∧
        (MsgType.ofCode m.type = some .blocked ∨ MsgType.ofCode m.type = some .dead)) ∧
      lord.rq = s.lord.rq.erase m.pid.toUInt32 ∧ enters m s.lord lord = []) := by
  have hmem := hinv.sound.tracks.mem_iff m.pid.toUInt32
  rcases hinv.sound.handle_ok hok with ⟨-, rfl⟩ | ⟨kind, next, hkind, hnext, -, rfl⟩
  · exact .inl ⟨rfl, if_neg fun h => h.1 h.2⟩
  have hstatus : (s.lord.move kind m.pid.toUInt32 next).status m.pid.toUInt32 = next := by
    rw [Lord.status_move, Function.update_self]
  have hrq : (s.lord.move kind m.pid.toUInt32 next).rq =
      requeue .queued s.lord.rq m.pid.toUInt32 (s.lord.status m.pid.toUInt32) next := rfl
  rw [hrq, enters, hstatus, requeue]
  by_cases hold : s.lord.status m.pid.toUInt32 = some .queued
  · by_cases hqueued : next = some .queued
    · exact .inl (by simp [hold, hqueued])
    · rw [hold] at hnext
      have hkinds := Lifecycle.leaves_queue hnext hqueued
      exact .inr (.inr ⟨⟨hold, hkinds.imp (fun h => hkind.trans (congrArg some h))
        fun h => hkind.trans (congrArg some h)⟩, by simp [hold, hqueued]⟩)
  · by_cases hqueued : next = some .queued
    · exact .inr (.inl ⟨mt hmem.mp hold, by simp [hold, hqueued]⟩)
    · exact .inl (by simp [hold, hqueued])

theorem Inv.step (D : S.Discipline) (hinv : Inv S s) (hstep : Step F s op t) : Inv S t := by
  cases hstep with
  | @msg m lord hzero hok =>
    refine ⟨hinv.sound.handle hok, fun hmem => ?_⟩
    have hold := hinv.zero
    rcases handle_service hinv hok with ⟨hrq, -⟩ | ⟨-, hrq, -⟩ | ⟨-, hrq, -⟩
    · exact hold (hrq ▸ hmem)
    · have hmem' : 0 ∈ lord.rq := hmem
      rw [hrq, List.mem_append, List.mem_singleton] at hmem'
      exact hmem'.elim hold fun heq => pid_ne_zero hzero heq.symm
    · have hmem' : 0 ∈ lord.rq := hmem
      rw [hrq] at hmem'
      exact hold (List.mem_of_mem_erase hmem')
  | @schedule input lord l₁ r hanswer hassign hok =>
    refine ⟨(D.shot hinv.sound hanswer.clean hok).1, fun hmem => hinv.zero ?_⟩
    have hrq := D.schedule_rq hinv.sound hassign hanswer.clean hok
    rw [Round.failed_of_success hanswer, List.map_nil, List.append_nil] at hrq
    have hqueue := (D.assigned hinv.sound hassign).queue
    have hmem' : 0 ∈ lord.rq := hmem
    exact hqueue.mem_iff.mpr (List.mem_append_right _ (hrq ▸ hmem'))

/-- A call is at most one event of the queue. -/
theorem Step.service (D : S.Discipline) (hinv : Inv S s) (hstep : Step F s op t) :
    t.service = s.service ∧ t.enqueued = s.enqueued ∨
    ∃ e, Service.Step s.service e t.service ∧ t.enqueued = s.enqueued ++ e.joins?.toList ∧ Causes F s op e := by
  cases hstep with
  | @msg m lord hzero hok =>
    rcases handle_service hinv hok with ⟨hrq, henters⟩ | ⟨hnew, hrq, henters⟩ | ⟨hkind, hrq, henters⟩
    · left
      simp only [Serving.service, hrq, henters, List.append_nil, and_self]
    · refine .inr ⟨.join m.pid.toUInt32, ?_, by rw [henters]; rfl, trivial⟩
      simp only [Serving.service, hrq]
      exact .join hnew
    · refine .inr ⟨.leave m.pid.toUInt32, ?_, by rw [henters]; rfl, rfl, hkind⟩
      simp only [Serving.service, hrq]
      exact .leave
  | @schedule input lord l₁ r hanswer hassign hok =>
    have hrq := D.schedule_rq hinv.sound hassign hanswer.clean hok
    rw [Round.failed_of_success hanswer, List.map_nil, List.append_nil] at hrq
    obtain ⟨hserved, hleft⟩ := F.walk hinv.sound hinv.zero hassign
    refine .inr ⟨.walk (F.active input) (F.servers input s.lord), ?_, (List.append_nil _).symm, rfl⟩
    simp only [Serving.service, hrq, hleft, hserved]
    exact .walk

/-- Every run is a run of the queue; `C` is what is asked of the calls, and `G` what follows for the events. -/
theorem service_of_runs (D : S.Discipline) {C : Serving θ κ → Scheduler.Op ι → Prop}
    {G : Service UInt32 → Service.Event UInt32 → Prop} (hG : ∀ s op e, C s op → Causes F s op e → G s.service e)
    {l : Lord θ κ} (hsound : l.Sound S.cpuNum) (hzero : 0 ∉ l.rq) {ops : List (Scheduler.Op ι)}
    (hrun : Runs (fun s op t => Step F s op t ∧ C s op) (start l) ops s) :
    ∃ events, Runs (fun s e t => Service.Step s e t ∧ G s e) (start l).service events s.service ∧
      s.enqueued = Service.joined events := by
  obtain ⟨events, q, hevents, -, hq, henqueued⟩ := hrun.simulate
    (Q := fun s e t => Service.Step s e t ∧ G s e)
    (E := fun _ s events q => Inv S s ∧ q = s.service ∧ s.enqueued = Service.joined events)
    (p := (start l).service) ⟨⟨hsound, hzero⟩, rfl, rfl⟩ (by
      rintro ops s op t events q ⟨hinv, rfl, henqueued⟩ ⟨hstep, hC⟩
      rcases hstep.service D hinv with ⟨hsame, hnone⟩ | ⟨e, he, hjoins, hcauses⟩
      · exact ⟨[], s.service, .nil, hinv.step D hstep, hsame.symm, by simpa [hnone] using henqueued⟩
      · refine ⟨[e], t.service, Runs.nil.snoc ⟨he, hG _ _ _ hC hcauses⟩, hinv.step D hstep, rfl, ?_⟩
        rw [hjoins, henqueued, Service.joined_snoc])
  exact ⟨events, hq ▸ hevents, henqueued⟩

/-! ### The three results -/

/-- Until `tid` is shot, no message blocks or ends it, and no round passes it over. -/
def Patient (F : S.FirstCome) (tid : UInt32) (s : Serving θ κ) : Scheduler.Op ι → Prop
  | .msg m => tid ∉ s.shot → m.pid.toUInt32 = tid →
      MsgType.ofCode m.type ≠ some .blocked ∧ MsgType.ofCode m.type ≠ some .dead
  | .schedule input => tid ∉ s.shot → F.active input tid = true

omit [Inhabited θ] [CpuRecord κ] in
theorem patient_service {tid : UInt32} {e : Service.Event UInt32} (hpatient : Patient F tid s op)
    (hcauses : Causes F s op e) : Service.Patient tid s.service e := by
  cases op with
  | msg m =>
    cases e with
    | join b => trivial
    | leave b =>
      obtain ⟨rfl, -, hkind⟩ := hcauses
      intro hlog heq
      obtain ⟨hblocked, hdead⟩ := hpatient hlog heq
      exact hkind.elim hblocked hdead
    | walk active n => cases hcauses
  | schedule input =>
    cases e with
    | join b | leave b => cases hcauses
    | walk active n =>
      obtain rfl : active = F.active input := hcauses
      exact hpatient

/-- A task that waits patiently is in the queue until it is shot, is overtaken by nobody, and is shot at the latest in the round after as many as there were tasks ahead of it. -/
theorem bounded_waiting (D : S.Discipline) {l : Lord θ κ} (hsound : l.Sound S.cpuNum) (hzero : 0 ∉ l.rq) {tid : UInt32}
    (hmem : tid ∈ l.rq) {ops : List (Scheduler.Op ι)}
    (hrun : Runs (fun s op t => Step F s op t ∧ Patient F tid s op) (start l) ops s) :
    Service.Waiting tid (l.rq.idxOf tid) s.service := by
  obtain ⟨events, hevents, -⟩ := service_of_runs D (G := Service.Patient tid)
    (fun _ _ _ => patient_service) hsound hzero hrun
  exact Service.bounded_waiting hsound.tracks.nodup hmem hevents

/-- A task that is still in the queue after a call, and that a round does not pass over, is nearer to its head if the round has found a CPU. -/
theorem forward (D : S.Discipline) (hinv : Inv S s) (hstep : Step F s op t) {tid : UInt32} (hmem : tid ∈ s.lord.rq)
    (hmem' : tid ∈ t.lord.rq) (hactive : ∀ input, op = .schedule input → F.active input tid = true) :
    t.lord.rq.idxOf tid + t.rounds ≤ s.lord.rq.idxOf tid + s.rounds := by
  rcases hstep.service D hinv with ⟨hsame, -⟩ | ⟨e, he, -, hcauses⟩
  · have hqueue := congrArg Service.queue hsame
    have hwalks := congrArg Service.walks hsame
    change t.lord.rq = s.lord.rq at hqueue
    change t.rounds = s.rounds at hwalks
    rw [hqueue, hwalks]
  · refine Service.forward (s := s.service) (t := t.service) hinv.sound.tracks.nodup hmem ?_ he hmem'
    rintro active n rfl
    cases op with
    | msg m => cases hcauses
    | schedule input =>
      obtain rfl : active = F.active input := hcauses
      exact hactive input rfl

/-- In a scheduler that passes nobody over, the tasks shot and those that wait are in the order in which they were enqueued. -/
theorem served_in_order (D : S.Discipline) (hactive : ∀ input tid, F.active input tid = true) {l : Lord θ κ}
    (hsound : l.Sound S.cpuNum) (hzero : 0 ∉ l.rq) {ops : List (Scheduler.Op ι)} (hrun : Runs (Step F) (start l) ops s) :
    (s.shot ++ s.lord.rq).Sublist (l.rq ++ s.enqueued) := by
  obtain ⟨events, hevents, henqueued⟩ := service_of_runs D (C := fun _ _ => True) (G := fun _ e => e.Impartial)
    (by
      rintro s op e - hcauses
      cases e with
      | join b | leave b => trivial
      | walk active n =>
        cases op with
        | msg m => cases hcauses
        | schedule input =>
          obtain rfl : active = F.active input := hcauses
          exact hactive input)
    hsound hzero (hrun.mono fun _ _ _ hstep => ⟨hstep, trivial⟩)
  rw [henqueued]
  exact Service.served_in_order hsound.tracks.nodup hevents

/-- No message blocks or ends a Queued task. -/
def Stays (s : Serving θ κ) : Scheduler.Op ι → Prop
  | .msg m => s.lord.status m.pid.toUInt32 = some .queued →
      MsgType.ofCode m.type ≠ some .blocked ∧ MsgType.ofCode m.type ≠ some .dead
  | .schedule _ => True

/-- No task is shot more often than it was enqueued. -/
theorem served_once (D : S.Discipline) {l : Lord θ κ} (hsound : l.Sound S.cpuNum) (hzero : 0 ∉ l.rq)
    {ops : List (Scheduler.Op ι)} (hrun : Runs (Step F) (start l) ops s) :
    (s.shot ++ s.lord.rq).Subperm (l.rq ++ s.enqueued) := by
  obtain ⟨events, hevents, henqueued⟩ := service_of_runs D (C := fun _ _ => True) (G := fun _ _ => True)
    (fun _ _ _ _ _ => trivial) hsound hzero (hrun.mono fun _ _ _ hstep => ⟨hstep, trivial⟩)
  rw [henqueued]
  exact (Service.served_once hsound.tracks.nodup (hevents.mono fun _ _ _ hstep => hstep.1)).1

/-- When no message blocks or ends a Queued task, each time a task was enqueued it was shot, or it waits. -/
theorem served_all (D : S.Discipline) {l : Lord θ κ} (hsound : l.Sound S.cpuNum) (hzero : 0 ∉ l.rq)
    {ops : List (Scheduler.Op ι)} (hrun : Runs (fun s op t => Step F s op t ∧ Stays s op) (start l) ops s) :
    (s.shot ++ s.lord.rq).Perm (l.rq ++ s.enqueued) := by
  obtain ⟨events, hevents, henqueued⟩ := service_of_runs D (C := fun s op => Stays s op)
    (G := fun _ e => ∀ b, e ≠ .leave b)
    (by
      rintro s op e hstays hcauses b rfl
      cases op with
      | schedule input => cases hcauses
      | msg m =>
        obtain ⟨rfl, hqueued, hkind⟩ := hcauses
        obtain ⟨hblocked, hdead⟩ := hstays hqueued
        exact hkind.elim hblocked hdead)
    hsound hzero hrun
  have hnone : ∀ b, Service.Event.leave b ∉ events := by
    refine hevents.invariant_history (P := fun events _ => ∀ b, Service.Event.leave b ∉ events) (by simp) ?_
    rintro events q e q' hnone ⟨-, hother⟩ b hmem
    rw [List.mem_append, List.mem_singleton] at hmem
    exact hmem.elim (hnone b) fun heq => hother b heq.symm
  rw [henqueued]
  exact (Service.served_once hsound.tracks.nodup (hevents.mono fun _ _ _ hstep => hstep.1)).2 hnone

end Serving

end CosUserspace
