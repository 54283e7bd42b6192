import CosUserspace.Process.Refinement

/-!
# How long `consume_message` takes

Each message costs `main` four accesses to the queue. While `main` is inside `consume_message` its accesses are counted by the messages it has taken and its place in the loop, so the kernel can keep it there only by publishing, and it leaves for `schedule` only at a moment at which every published message has been handled.
-/

namespace CosUserspace

namespace ConsumerPc

/-- The accesses made so far for the message that is next. -/
def accesses : ConsumerPc → Nat
  | .loop => 0
  | .entered => 1
  | .reading => 2
  | .advancing _ => 3

end ConsumerPc

namespace Channel

variable {s t : Channel} {action : Action}

/-- The accesses with which the lord has come here. -/
def accesses (s : Channel) : Nat := 4 * s.consumed.length + s.consumer.accesses

theorem Inv.accesses_le (hinv : Inv s) : s.accesses ≤ 4 * s.produced.length := by
  have hagrees := hinv.consumer
  have hle := hinv.ring.taken_le
  cases hpc : s.consumer with
  | loop =>
    simp only [accesses, hpc, ConsumerPc.accesses]
    omega
  | entered | reading =>
    simp only [hpc, ConsumerAgrees] at hagrees
    simp only [accesses, hpc, ConsumerPc.accesses]
    omega
  | advancing ret =>
    simp only [hpc, ConsumerAgrees] at hagrees
    obtain ⟨hmore, -⟩ := hagrees
    simp only [accesses, hpc, ConsumerPc.accesses]
    omega

/-- An access that does not leave the loop counts as one. -/
theorem Inv.accesses_consume (hinv : Inv s) (hstays : s.leaves = false) : s.consume.accesses = s.accesses + 1 := by
  have hagrees := hinv.consumer
  cases hpc : s.consumer with
  | loop =>
    have htest : s.mq.empty = false := by simpa [leaves, hpc] using hstays
    simp [accesses, Channel.consume, hpc, htest, ConsumerPc.accesses]
  | entered =>
    -- a message waits since the test of the loop
    have hmore : s.consumed.length < s.produced.length := by simpa only [hpc, ConsumerAgrees] using hagrees
    have htest : s.mq.empty = false := by
      rw [← Bool.not_eq_true, hinv.empty_iff]
      exact Nat.ne_of_lt hmore
    simp [accesses, Channel.consume, hpc, htest, ConsumerPc.accesses]
  | reading => simp [accesses, Channel.consume, hpc, ConsumerPc.accesses]
  | advancing ret =>
    simp only [accesses, Channel.consume, hpc, deliver, ConsumerPc.accesses, List.length_append, List.length_singleton]
    omega

theorem accesses_kernel (hstep : Step s action t) (hkernel : action ≠ .consume) : t.accesses = s.accesses := by
  obtain ⟨hconsumed, hconsumer, -⟩ := kernel_frame hstep hkernel
  rw [accesses, accesses, hconsumed, hconsumer]

/-- The loop is left when nothing is unread. -/
theorem Inv.consumed_eq_of_leaves (hinv : Inv s) (hleaves : s.leaves = true) : s.consumed = s.produced := by
  refine hinv.delivered.eq_of_length (hinv.empty_iff.mp ?_)
  cases hpc : s.consumer with
  | loop => simpa [leaves, hpc] using hleaves
  | entered | reading | advancing ret => simp [leaves, hpc] at hleaves

end Channel

namespace Process

variable {θ κ ι : Type} [Inhabited θ] [CpuRecord κ] {S : Scheduler θ κ ι} {allowed : ι → Prop} {s t : Process θ κ}

def Access.isMain : Access ι → Bool
  | .kernel _ => false
  | .main _ => true

/-- A step after which `main` is still inside `consume_message`. -/
def StepInside (S : Scheduler θ κ ι) (allowed : ι → Prop) (s : Process θ κ) (access : Access ι) (t : Process θ κ) : Prop :=
  Step S allowed s access t ∧ t.pc = .consumeMessage

theorem channel_of_runs {lordCpu : Int} {lordPid : UInt32} {data : Fin mqDataSize → CosMsg} {accesses : List (Access ι)}
    (hrun : Runs (Step S allowed) (init S lordCpu lordPid data) accesses s) : s.channel.Inv := by
  obtain ⟨_, _, -, hrefines⟩ := hrun.simulate (Q := S.TurnUnder allowed) (E := Refines S allowed)
    (p := Lord.new S.cpuNum lordCpu lordPid) ⟨.init data, by simp, [], rfl, rfl⟩
    fun _ _ _ _ _ _ hrel hstep => hrel.step hstep
  exact hrefines.channel

theorem stays_of_inside {input : ι} (hpc : s.pc = .consumeMessage) (hstays : (s.main S input).pc = .consumeMessage) :
    s.channel.leaves = false := by
  cases hleaves : s.channel.leaves with
  | false => rfl
  | true => simp [main_leaves hpc hleaves] at hstays

theorem channel_main {input : ι} (hpc : s.pc = .consumeMessage) (hleaves : s.channel.leaves = false) :
    (s.main S input).channel = s.channel.consume := by
  unfold main
  rw [hpc]
  dsimp only
  rw [if_neg (by simp [hleaves])]
  split
  · rfl
  · split <;> rfl

theorem inside_step (hinv : s.channel.Inv) (hpc : s.pc = .consumeMessage) {access : Access ι}
    (hstep : StepInside S allowed s access t) :
    t.channel.Inv ∧ t.channel.accesses = s.channel.accesses + [access].countP Access.isMain := by
  obtain ⟨hstep, hstays⟩ := hstep
  cases hstep with
  | kernel hkernel hstep =>
    exact ⟨hinv.step hstep.1 hstep.2, Channel.accesses_kernel hstep.1 hkernel⟩
  | @main input _ =>
    have hloop := stays_of_inside hpc hstays
    rw [channel_main hpc hloop]
    exact ⟨hinv.consume, hinv.accesses_consume hloop⟩

/-- **Four accesses for each message, and nothing is left unread.** -/
theorem consume_message_leaves {lordCpu : Int} {lordPid : UInt32} {data : Fin mqDataSize → CosMsg}
    {before accesses : List (Access ι)} (hrun : Runs (Step S allowed) (init S lordCpu lordPid data) before s)
    (hpc : s.pc = .consumeMessage) (hinside : Runs (StepInside S allowed) s accesses t) :
    s.channel.accesses + accesses.countP Access.isMain = t.channel.accesses ∧
    accesses.countP Access.isMain ≤ 4 * (t.channel.produced.length - s.channel.consumed.length) ∧
    ∀ input, (t.main S input).pc = .schedule → t.channel.consumed = t.channel.produced := by
  obtain ⟨hinv, htpc, hcount⟩ : t.channel.Inv ∧ t.pc = .consumeMessage ∧
      t.channel.accesses = s.channel.accesses + accesses.countP Access.isMain := by
    refine hinside.invariant_history (P := fun accesses t => t.channel.Inv ∧ t.pc = .consumeMessage ∧
      t.channel.accesses = s.channel.accesses + accesses.countP Access.isMain) ⟨channel_of_runs hrun, hpc, rfl⟩ ?_
    rintro accesses u access v ⟨hinv, hupc, hcount⟩ hstep
    obtain ⟨hinv', hcount'⟩ := inside_step hinv hupc hstep
    refine ⟨hinv', hstep.2, ?_⟩
    rw [hcount', hcount, List.countP_append]
    omega
  refine ⟨hcount.symm, ?_, fun input hschedule => ?_⟩
  · have hle := hinv.accesses_le
    have hbefore : 4 * s.channel.consumed.length ≤ s.channel.accesses := Nat.le_add_right ..
    omega
  · cases hleaves : t.channel.leaves with
    | true => exact hinv.consumed_eq_of_leaves hleaves
    | false =>
      rcases main_cases S input t with ⟨-, h, -⟩ | ⟨-, -, -, heq⟩ | ⟨msg, -, -, -, ⟨lord, -, heq⟩ | ⟨stop, -, heq⟩⟩ |
        ⟨h, -⟩ | ⟨stop, h, -⟩
      · rw [hleaves] at h
        cases h
      · rw [heq, htpc] at hschedule
        cases hschedule
      · rw [heq, htpc] at hschedule
        cases hschedule
      · rw [heq] at hschedule
        cases hschedule
      · rw [htpc] at h
        cases h
      · rw [htpc] at h
        cases h

/-- A scheduler for two CPUs whose queue holds one message. -/
def announced : Process Unit Fifo.CpuState :=
  { init (fifo 2) 0 1 (fun _ => default) with channel := (Channel.init fun _ => default).afterProduce ⟨10, 3, 1⟩ }

/-- `main` takes the message with four accesses. -/
theorem consume_message_leaves_four :
    ∃ t, Runs (Step (fifo 2) ShootAnswer.Clean) (init (fifo 2) 0 1 fun _ => default)
        [.kernel (.write ⟨10, 3, 1⟩), .kernel .publish] announced ∧
      Runs (StepInside (fifo 2) ShootAnswer.Clean) announced (List.replicate 4 (.main ⟨0, ∅⟩)) t ∧
      t.channel.accesses = 4 ∧ ((t.main (fifo 2) ⟨0, ∅⟩).pc = .schedule → t.channel.consumed = t.channel.produced) := by
  have hclean : ShootAnswer.Clean ⟨0, ∅⟩ := fun _ => rfl
  have hrun : Runs (Step (fifo 2) ShootAnswer.Clean) (init (fifo 2) 0 1 fun _ => default)
      [.kernel (.write ⟨10, 3, 1⟩), .kernel .publish] announced :=
    .cons (.kernel (by simp) ⟨.write rfl (by decide : 0 < 511), fun _ _ _ => by decide⟩)
      (.cons (.kernel (by simp) ⟨.publish rfl, by simp⟩) .nil)
  have hinside : Runs (StepInside (fifo 2) ShootAnswer.Clean) announced (List.replicate 4 (.main ⟨0, ∅⟩)) _ :=
    .cons ⟨.main hclean, rfl⟩ (.cons ⟨.main hclean, rfl⟩ (.cons ⟨.main hclean, rfl⟩ (.cons ⟨.main hclean, rfl⟩ .nil)))
  obtain ⟨hcount, -, hempty⟩ := consume_message_leaves hrun rfl hinside
  exact ⟨_, hrun, hinside, hcount.symm.trans rfl, hempty ⟨0, ∅⟩⟩

end Process

end CosUserspace
