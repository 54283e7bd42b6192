import CosUserspace.Fifo.Lord
import CosUserspace.Shinjuku.Assignment

/-!
# Threads and their tids

The kernel reports a thread by assigning its 32-bit tid to the 16-bit `cos_msg.pid`; the lord keys its tables by what arrives, shoots it as the tid, and takes `0` for an empty queue. Here the kernel announces each thread once with NEW or NEW_BLOCKED, reports on it while it lives, and ends with DEAD. `Phase.Agrees` ties what the kernel last said of a thread to its record in the lord. It is kept by every report and round as long as no tid loses bits on its way.
-/

namespace CosUserspace

/-- The message about a thread: `msg.pid` is assigned its tid. -/
def report (tid : UInt32) (kind : MsgType) (seq : UInt32) : CosMsg := ⟨tid.toUInt16, kind.code, seq⟩

/-- What the kernel has reported of a thread. -/
inductive Phase
  | unborn
  | live (last : MsgType)
  | dead
  deriving DecidableEq

namespace Phase

/-- NEW or NEW_BLOCKED once and first, DEAD once and last. -/
def next : MsgType → Phase → Option Phase
  | .new, .unborn => some (.live .new)
  | .newBlocked, .unborn => some (.live .newBlocked)
  | .dead, .live _ => some .dead
  | .runnable, .live _ => some (.live .runnable)
  | .blocked, .live _ => some (.live .blocked)
  | .preempt, .live _ => some (.live .preempt)
  | .cosPreempt, .live _ => some (.live .cosPreempt)
  | _, _ => none

/-- The messages that put a task into the run queue. -/
def enqueues : MsgType → Bool
  | .new | .runnable | .preempt | .cosPreempt => true
  | .blocked | .newBlocked | .dead => false

/-- A report that follows the protocol announces its thread, or is one about a live thread. -/
theorem next_cases {kind : MsgType} {phase phase' : Phase} (hphase : next kind phase = some phase') :
    (phase = .unborn ∧ (kind = .new ∨ kind = .newBlocked) ∧ phase' = .live kind) ∨
    ∃ last, phase = .live last ∧ (kind = .dead ∧ phase' = .dead ∨ kind ≠ .dead ∧ phase' = .live kind) := by
  cases phase with
  | unborn => cases kind <;> simp_all [next]
  | live last => cases kind <;> simp_all [next]
  | dead => cases kind <;> simp [next] at hphase

/-- What an accepted report other than DEAD makes of a known task. -/
theorem next_live {kind : MsgType} {state : RunState} {s : Option RunState} (hkind : kind ≠ .dead)
    (hlife : Lifecycle.next kind (some state) = .ok s) : s = some (if enqueues kind then .queued else .blocked) := by
  cases kind with
  | runnable | blocked => exact (Except.ok.inj hlife).symm
  | new | newBlocked => cases hlife
  | dead => exact absurd rfl hkind
  | preempt | cosPreempt =>
    cases state with
    | queued | onCpu => exact (Except.ok.inj hlife).symm
    | blocked => cases hlife

/-- The thread is live, and the last report put it into the run queue. -/
def Waits (phase : Phase) : Prop := ∃ last, phase = .live last ∧ enqueues last = true

/-- The record of a thread in a phase: none unless it is live, and Blocked only after a report that does not enqueue it. -/
inductive Agrees : Phase → Option RunState → Prop
  | unborn : Agrees .unborn none
  | dead : Agrees .dead none
  | waits {last : MsgType} {state : RunState} (hlast : enqueues last = true) (hstate : state ≠ .blocked) :
      Agrees (.live last) (some state)
  | blocked {last : MsgType} (hlast : enqueues last = false) : Agrees (.live last) (some .blocked)

namespace Agrees

variable {kind : MsgType} {phase phase' : Phase} {s s' : Option RunState}

theorem exists_state {last : MsgType} (h : Agrees (.live last) s) : ∃ state, s = some state := by
  cases h with
  | waits | blocked => exact ⟨_, rfl⟩

theorem next (h : phase.Agrees s) (hphase : Phase.next kind phase = some phase')
    (hlife : Lifecycle.next kind s = .ok s') : phase'.Agrees s' := by
  rcases next_cases hphase with ⟨rfl, hkind, rfl⟩ | ⟨last, rfl, ⟨rfl, rfl⟩ | ⟨hkind, rfl⟩⟩
  · cases h
    rcases hkind with rfl | rfl
    · obtain rfl := Except.ok.inj hlife
      exact .waits rfl (by decide)
    · obtain rfl := Except.ok.inj hlife
      exact .blocked rfl
  · obtain ⟨state, rfl⟩ := h.exists_state
    obtain rfl := Except.ok.inj hlife
    exact .dead
  · obtain ⟨state, rfl⟩ := h.exists_state
    obtain rfl := next_live hkind hlife
    cases hlast : enqueues kind with
    | true => exact .waits hlast (by simp)
    | false => exact .blocked hlast

/-- A report that follows the protocol is rejected only by the assert that a preempted task is not Blocked. -/
theorem error (h : phase.Agrees s) (hphase : Phase.next kind phase = some phase') {stop : Stop}
    (hlife : Lifecycle.next kind s = .error stop) : stop = .assertNotBlocked := by
  cases h with
  | unborn | dead => cases kind <;> simp [Phase.next, Lifecycle.next] at hphase hlife
  | @waits last state hlast hstate =>
    cases kind <;> cases state <;> simp [Phase.next, Lifecycle.next] at hphase hlife hstate
  | blocked => cases kind <;> simp [Phase.next, Lifecycle.next] at hphase hlife <;> exact hlife.symm

theorem onCpu (h : phase.Agrees (some .queued)) : phase.Agrees (some .onCpu) := by
  cases h with
  | waits hlast => exact .waits hlast (by decide)

theorem waits_of_queued (h : phase.Agrees (some .queued)) : phase.Waits := by
  cases h with
  | waits hlast => exact ⟨_, rfl, hlast⟩

end Agrees

end Phase

/-! ### The kernel's reports -/

/-- A lord, and what the kernel has reported to it of each thread. -/
structure Reported (θ κ : Type) where
  lord : Lord θ κ
  phase : UInt32 → Phase

namespace Reported

variable {θ κ ι : Type} [Inhabited θ] [CpuRecord κ]

inductive Call (ι : Type)
  | thread (tid : UInt32) (kind : MsgType) (seq : UInt32)
  /-- a message about the lord itself -/
  | lord (kind : MsgType) (seq : UInt32)
  | schedule (input : ι)

/-- A report about one of `threads` that follows the protocol, any message about the lord's thread `lordPid`, or a round. -/
inductive Step (S : Scheduler θ κ ι) (threads : Set UInt32) (lordPid : UInt32) (k : Reported θ κ) :
    Call ι → Reported θ κ → Prop
  | thread {tid seq : UInt32} {kind : MsgType} {phase : Phase} {lord : Lord θ κ} (hthread : tid ∈ threads)
      (hphase : Phase.next kind (k.phase tid) = some phase)
      (hok : k.lord.consumeMessage [report tid kind seq] = .ok lord) :
      Step S threads lordPid k (.thread tid kind seq) ⟨lord, Function.update k.phase tid phase⟩
  | lord {kind : MsgType} {seq : UInt32} {lord : Lord θ κ}
      (hok : k.lord.consumeMessage [report lordPid kind seq] = .ok lord) :
      Step S threads lordPid k (.lord kind seq) { k with lord }
  | schedule {input : ι} {lord : Lord θ κ} (hok : S.schedule input k.lord = .ok lord) :
      Step S threads lordPid k (.schedule input) { k with lord }

structure Apart (S : Scheduler θ κ ι) (threads : Set UInt32) (lordPid : UInt32) (k : Reported θ κ) : Prop where
  /-- A report changes no record but that of its thread. -/
  unchanged : ∀ tid ∈ threads, ∀ kind seq phase lord, Phase.next kind (k.phase tid) = some phase →
    k.lord.consumeMessage [report tid kind seq] = .ok lord → ∀ other ≠ tid, ∀ last, k.phase other = .live last →
      lord.aliveTasks other = k.lord.aliveTasks other
  /-- No report makes the lord exit. -/
  accepted : ∀ tid ∈ threads, ∀ kind seq phase stop, Phase.next kind (k.phase tid) = some phase →
    k.lord.consumeMessage [report tid kind seq] = .error stop → stop = .assertNotBlocked ∨ stop = .assertCpuCos
  /-- What is committed is the tid of a live thread that a report put into the queue. -/
  committed : ∀ input lord r, S.assign input k.lord = .ok (lord, r) → ∀ entry ∈ r.assigned,
    entry.2.pid ∈ threads ∧ (k.phase entry.2.pid).Waits
  /-- A queue with a thread in it does not look empty. -/
  peek_ne : k.lord.rq ≠ [] → k.lord.rq.peek ≠ 0
  /-- A message about the lord's own thread is skipped. -/
  skipped : ∀ kind seq, k.lord.consumeMessage [report lordPid kind seq] = .ok k.lord

/-! ### Tids of 16 bits -/

omit [Inhabited θ] [CpuRecord κ] in
theorem report_pid {tid : UInt32} (hsmall : tid.toNat < 2 ^ 16) (kind : MsgType) (seq : UInt32) :
    (report tid kind seq).pid.toUInt32 = tid := by
  rw [← UInt32.toNat_inj]
  simp only [report, UInt16.toNat_toUInt32, UInt32.toNat_toUInt16]
  omega

/-- The lord and the reports agree. -/
structure Inv (cpuNum : Nat) (threads : Set UInt32) (lordPid : UInt32) (k : Reported θ κ) : Prop where
  sound : k.lord.Sound cpuNum
  lordPid_eq : k.lord.lordPid = lordPid
  agrees : ∀ tid, (k.phase tid).Agrees (k.lord.status tid)
  known : ∀ tid, k.phase tid ≠ .unborn → tid ∈ threads

namespace Inv

variable {cpuNum : Nat} {threads : Set UInt32} {lordPid : UInt32} {k : Reported θ κ}

omit [Inhabited θ] in
theorem init (cpuNum : Nat) (threads : Set UInt32) (lordCpu : Int) (lordPid : UInt32) :
    Inv cpuNum threads lordPid (⟨.new cpuNum lordCpu lordPid, fun _ => .unborn⟩ : Reported θ κ) where
  sound := .new ..
  lordPid_eq := rfl
  agrees := fun _ => .unborn
  known := fun _ h => absurd rfl h

theorem skipped (h : Inv cpuNum threads lordPid k) (hlord : lordPid.toNat < 2 ^ 16) (kind : MsgType) (seq : UInt32) :
    k.lord.consumeMessage [report lordPid kind seq] = .ok k.lord := by
  rw [Lord.consumeMessage, report_pid hlord, if_pos h.lordPid_eq.symm, Lord.consumeMessage]

theorem consumeMessage_eq (h : Inv cpuNum threads lordPid k) {tid : UInt32} (hsmall : tid.toNat < 2 ^ 16)
    (hlord : tid ≠ lordPid) (kind : MsgType) (seq : UInt32) :
    k.lord.consumeMessage [report tid kind seq] = ({ k.lord with seq } : Lord θ κ).handle (report tid kind seq) := by
  rw [Lord.consumeMessage, report_pid hsmall, if_neg (h.lordPid_eq.symm ▸ hlord)]
  simp only [report, Lord.consumeMessage]
  split <;> simp_all

omit [Inhabited θ] [CpuRecord κ] in
theorem withSeq (h : Inv cpuNum threads lordPid k) (seq : UInt32) :
    ({ k.lord with seq } : Lord θ κ).Sound cpuNum :=
  ⟨h.sound.tracks, h.sound.keyed, h.sound.onCpu, h.sound.capacity, h.sound.clear⟩

theorem report_ok (h : Inv cpuNum threads lordPid k) {tid seq : UInt32} {kind : MsgType}
    (hsmall : tid.toNat < 2 ^ 16) (hlord : tid ≠ lordPid) {lord : Lord θ κ}
    (hok : k.lord.consumeMessage [report tid kind seq] = .ok lord) :
    ∃ next, Lifecycle.next kind (k.lord.status tid) = .ok next ∧
      lord = ({ k.lord with seq } : Lord θ κ).move kind tid next := by
  rw [h.consumeMessage_eq hsmall hlord] at hok
  rcases (h.withSeq seq).handle_ok hok with ⟨hnone, -⟩ | ⟨kind', next, hkind, hnext, -, hmove⟩
  · simp [report] at hnone
  · obtain rfl : kind = kind' := by simpa [report] using hkind
    rw [report_pid hsmall] at hnext hmove
    exact ⟨next, hnext, hmove⟩

theorem thread (h : Inv cpuNum threads lordPid k) {tid seq : UInt32} {kind : MsgType} {phase : Phase}
    {lord : Lord θ κ} (hthread : tid ∈ threads) (hsmall : tid.toNat < 2 ^ 16) (hlord : tid ≠ lordPid)
    (hphase : Phase.next kind (k.phase tid) = some phase)
    (hok : k.lord.consumeMessage [report tid kind seq] = .ok lord) :
    Inv cpuNum threads lordPid ⟨lord, Function.update k.phase tid phase⟩ := by
  obtain ⟨next, hnext, rfl⟩ := h.report_ok hsmall hlord hok
  constructor
  case sound => exact (h.withSeq seq).move (Lifecycle.next_ne_onCpu hnext)
  case lordPid_eq => exact h.lordPid_eq
  case agrees =>
    intro t
    rw [Lord.status_move]
    by_cases ht : t = tid
    · subst ht
      simp only [Function.update_self]
      exact (h.agrees t).next hphase hnext
    · rw [Function.update_of_ne ht]
      dsimp only
      rw [Function.update_of_ne ht]
      exact h.agrees t
  case known =>
    intro t ht
    by_cases heq : t = tid
    · exact heq ▸ hthread
    · exact h.known t (by simpa [heq] using ht)

omit [Inhabited θ] [CpuRecord κ] in
theorem schedule {S : Scheduler θ κ ι} (D : S.Discipline) (h : Inv S.cpuNum threads lordPid k) {input : ι}
    (hanswer : (S.answer input).Clean) {lord : Lord θ κ} (hok : S.schedule input k.lord = .ok lord) :
    Inv S.cpuNum threads lordPid { k with lord } := by
  obtain ⟨hsound, _, _, -, hshot⟩ := D.shot h.sound hanswer hok
  refine ⟨hsound, hshot.lordPid_eq.trans h.lordPid_eq, fun tid => ?_, h.known⟩
  have hagrees := h.agrees tid
  rcases hshot.status_cases tid with hsame | ⟨hqueued, honCpu⟩
  · exact hsame ▸ hagrees
  · rw [hqueued] at hagrees
    exact honCpu ▸ hagrees.onCpu

theorem apart {S : Scheduler θ κ ι} (D : S.Discipline) (h : Inv S.cpuNum threads lordPid k)
    (hsmall : ∀ tid ∈ threads, tid ≠ 0 ∧ tid.toNat < 2 ^ 16) (hlord : lordPid.toNat < 2 ^ 16)
    (hlordThread : lordPid ∉ threads) : Apart S threads lordPid k := by
  have hne : ∀ tid ∈ threads, tid ≠ lordPid := fun tid hmem heq => hlordThread (heq ▸ hmem)
  have hqueued : ∀ tid ∈ k.lord.rq, tid ∈ threads ∧ (k.phase tid).Waits := by
    intro tid hmem
    have hagrees := h.agrees tid
    rw [(h.sound.tracks.mem_iff tid).mp hmem] at hagrees
    obtain ⟨last, hlast, henqueues⟩ := hagrees.waits_of_queued
    exact ⟨h.known tid (by rw [hlast]; simp), last, hlast, henqueues⟩
  constructor
  case unchanged =>
    intro tid hthread kind seq phase lord hphase hok other hother last _
    obtain ⟨next, -, rfl⟩ := h.report_ok (hsmall tid hthread).2 (hne tid hthread) hok
    exact Lord.aliveTasks_move_of_ne hother
  case accepted =>
    intro tid hthread kind seq phase stop hphase herror
    rw [h.consumeMessage_eq (hsmall tid hthread).2 (hne tid hthread)] at herror
    rcases (h.withSeq seq).handle_error herror with ⟨kind', hkind, hlife⟩ | ⟨hstop, -⟩
    · obtain rfl : kind = kind' := by simpa [report] using hkind
      rw [report_pid (hsmall tid hthread).2] at hlife
      exact .inl ((h.agrees tid).error hphase hlife)
    · exact .inr hstop
  case committed =>
    intro input lord r hassign entry hentry
    have hassigned := D.assigned h.sound hassign
    refine hqueued _ (hassigned.queue.mem_iff.mpr (List.mem_append_left _ ?_))
    exact List.mem_map.mpr ⟨(entry.1, entry.2.pid), Round.mem_pairs.mpr ⟨entry.2, hentry, rfl⟩, rfl⟩
  case peek_ne =>
    intro hnonempty
    obtain ⟨head, rest, hrq⟩ := List.exists_cons_of_ne_nil hnonempty
    have hhead : head ∈ k.lord.rq := by simp [hrq]
    rw [hrq]
    exact (hsmall head (hqueued head hhead).1).1
  case skipped => exact fun kind seq => h.skipped hlord kind seq

end Inv

/-- A step whose round, if it is one, is not flagged with an error. -/
def CleanStep (S : Scheduler θ κ ι) (threads : Set UInt32) (lordPid : UInt32) (k : Reported θ κ) (call : Call ι)
    (k' : Reported θ κ) : Prop :=
  Step S threads lordPid k call k' ∧ ∀ input, call = .schedule input → (S.answer input).Clean

theorem apart_of_runs {S : Scheduler θ κ ι} (D : S.Discipline) {threads : Set UInt32} {lordCpu : Int}
    {lordPid : UInt32} (hsmall : ∀ tid ∈ threads, tid ≠ 0 ∧ tid.toNat < 2 ^ 16) (hlord : lordPid.toNat < 2 ^ 16)
    (hlordThread : lordPid ∉ threads) {calls : List (Call ι)} {k : Reported θ κ}
    (hrun : Runs (CleanStep S threads lordPid) ⟨.new S.cpuNum lordCpu lordPid, fun _ => .unborn⟩ calls k) :
    Apart S threads lordPid k := by
  refine Inv.apart D (hrun.invariant (P := Inv S.cpuNum threads lordPid) (.init ..) ?_) hsmall hlord hlordThread
  rintro k call k' h ⟨hstep, hclean⟩
  cases hstep with
  | thread hthread hphase hok =>
    exact h.thread hthread (hsmall _ hthread).2 (fun heq => hlordThread (heq ▸ hthread)) hphase hok
  | lord hok =>
    rw [h.skipped hlord] at hok
    obtain rfl := Except.ok.inj hok
    exact h
  | schedule hok => exact h.schedule D (hclean _ rfl) hok

/-- **As long as every tid fits into 16 bits** and no error flags a CPU, both lords tell any set of threads apart, in every order of their reports and of the rounds. -/
theorem threads_apart (cpuNum : Nat) (lordCpu : Int) (threads : Set UInt32) (lordPid : UInt32)
    (hsmall : ∀ tid ∈ threads, tid ≠ 0 ∧ tid.toNat < 2 ^ 16) (hlord : lordPid.toNat < 2 ^ 16)
    (hlordThread : lordPid ∉ threads) :
    (∀ calls k, Runs (CleanStep (fifo cpuNum) threads lordPid) ⟨.new cpuNum lordCpu lordPid, fun _ => .unborn⟩
      calls k → Apart (fifo cpuNum) threads lordPid k) ∧
    ∀ calls k, Runs (CleanStep (shinjuku cpuNum) threads lordPid) ⟨.new cpuNum lordCpu lordPid, fun _ => .unborn⟩
      calls k → Apart (shinjuku cpuNum) threads lordPid k :=
  ⟨fun _ _ => apart_of_runs (fifoDiscipline cpuNum) hsmall hlord hlordThread,
    fun _ _ => apart_of_runs (shinjukuDiscipline cpuNum) hsmall hlord hlordThread⟩

theorem threads_apart_two :
    (∃ k, Runs (CleanStep (fifo 2) {10, 11} 1) ⟨.new 2 0 1, fun _ => .unborn⟩
      [.thread 10 .new 1, .thread 11 .new 2, .lord .blocked 3] k ∧ Apart (fifo 2) {10, 11} 1 k) ∧
    ∃ k, Runs (CleanStep (shinjuku 4) {10, 11} 1) ⟨.new 4 0 1, fun _ => .unborn⟩
      [.thread 10 .new 1, .thread 11 .new 2, .lord .blocked 3] k ∧ Apart (shinjuku 4) {10, 11} 1 k := by
  have hapart := fun cpuNum => threads_apart cpuNum 0 {10, 11} 1 (by simp) (by decide) (by simp)
  have hfifo : Runs (CleanStep (fifo 2) {10, 11} 1) ⟨.new 2 0 1, fun _ => .unborn⟩
      [.thread 10 .new 1, .thread 11 .new 2, .lord .blocked 3] _ :=
    .cons ⟨.thread (by simp) rfl rfl, by simp⟩ (.cons ⟨.thread (by simp) rfl rfl, by simp⟩
      (.cons ⟨.lord rfl, by simp⟩ .nil))
  have hshinjuku : Runs (CleanStep (shinjuku 4) {10, 11} 1) ⟨.new 4 0 1, fun _ => .unborn⟩
      [.thread 10 .new 1, .thread 11 .new 2, .lord .blocked 3] _ :=
    .cons ⟨.thread (by simp) rfl rfl, by simp⟩ (.cons ⟨.thread (by simp) rfl rfl, by simp⟩
      (.cons ⟨.lord rfl, by simp⟩ .nil))
  exact ⟨⟨_, hfifo, (hapart 2).1 _ _ hfifo⟩, _, hshinjuku, (hapart 4).2 _ _ hshinjuku⟩

/-- The threads `1` and `65537` are the same to the lord: it exits when the second one is announced. -/
theorem threads_confused :
    ∃ k, Runs (Step (fifo 2) {1, 65537} 100) ⟨.new 2 0 100, fun _ => .unborn⟩ [.thread 1 .new 1] k ∧
      k.lord.consumeMessage [report 65537 .new 2] = .error .sameNewThread ∧ ¬ Apart (fifo 2) {1, 65537} 100 k := by
  have hrun : Runs (Step (fifo 2) {1, 65537} 100) ⟨.new 2 0 100, fun _ => .unborn⟩ [.thread 1 .new 1] _ :=
    .cons (.thread (by simp) rfl rfl) .nil
  refine ⟨_, hrun, rfl, fun hapart => ?_⟩
  rcases hapart.accepted 65537 (by simp) .new 2 (.live .new) .sameNewThread rfl rfl with hstop | hstop <;> cases hstop

end Reported

end CosUserspace
