import CosUserspace.Contract.Sequence
import CosUserspace.Process.Model

/-!
# The process takes turns

Whatever the interleaving of the kernel's writes with the accesses of `main`, what the lord has become is explained by whole turns, each a batch of messages and one call of `schedule`, and by the messages handled since: none is lost, repeated or handled out of order, and the process ends only where a turn does.
-/

namespace CosUserspace

variable {θ κ ι : Type}

theorem Lord.consumeMessage_append [Inhabited θ] [CpuRecord κ] (l : Lord θ κ) (msgs more : List CosMsg) :
    l.consumeMessage (msgs ++ more) = (l.consumeMessage msgs).bind (·.consumeMessage more) := by
  induction msgs generalizing l with
  | nil => rfl
  | cons m msgs ih =>
    rw [List.cons_append, consumeMessage, consumeMessage]
    split
    · exact ih l
    · cases ({ l with seq := m.seq } : Lord θ κ).handle m with
      | error stop => rfl
      | ok l₁ => exact ih l₁

theorem Lord.consumeMessage_concat_ok [Inhabited θ] [CpuRecord κ] {l l₁ l₂ : Lord θ κ} {msgs : List CosMsg} {m : CosMsg}
    (hok : l.consumeMessage msgs = .ok l₁) (hnext : l₁.consumeMessage [m] = .ok l₂) :
    l.consumeMessage (msgs ++ [m]) = .ok l₂ := by
  rw [consumeMessage_append, hok]
  exact hnext

theorem Lord.consumeMessage_concat_error [Inhabited θ] [CpuRecord κ] {l l₁ : Lord θ κ} {msgs : List CosMsg} {m : CosMsg}
    {stop : Stop} (hok : l.consumeMessage msgs = .ok l₁) (hnext : l₁.consumeMessage [m] = .error stop) :
    l.consumeMessage (msgs ++ [m]) = .error stop := by
  rw [consumeMessage_append, hok]
  exact hnext

/-- A turn whose round reads an input that `allowed` admits. -/
def Scheduler.TurnUnder [Inhabited θ] [CpuRecord κ] (S : Scheduler θ κ ι) (allowed : ι → Prop) (l : Lord θ κ)
    (turn : List CosMsg × ι) (l' : Lord θ κ) : Prop :=
  allowed turn.2 ∧ S.Turn l turn l'

namespace Channel

/-- The kernel's steps leave the lord's side alone. -/
theorem kernel_frame {s t : Channel} {action : Action} (hstep : Step s action t) (hkernel : action ≠ .consume) :
    t.consumed = s.consumed ∧ t.consumer = s.consumer ∧ t.mq.tail = s.mq.tail := by
  cases hstep with
  | write => exact ⟨rfl, rfl, rfl⟩
  | publish => exact ⟨rfl, rfl, rfl⟩
  | consume => exact absurd rfl hkernel

end Channel

namespace Process

variable [Inhabited θ] [CpuRecord κ] {S : Scheduler θ κ ι} {allowed : ι → Prop} {s t : Process θ κ}

/-- Since `l₀`, the lord after the last full turn, `main` has handled the messages `batch`. -/
def Explains (S : Scheduler θ κ ι) (allowed : ι → Prop) (l₀ : Lord θ κ) (batch : List CosMsg) (s : Process θ κ) : Prop :=
  match s.pc with
  | .consumeMessage | .schedule => l₀.consumeMessage batch = .ok s.lord
  | .stopped stop => l₀.consumeMessage batch = .error stop ∨
      ∃ input l₁, allowed input ∧ l₀.consumeMessage batch = .ok l₁ ∧ S.schedule input l₁ = .error stop

/-- The state is explained by the full turns `turns` that end with `l₀`, and by what came after them. -/
structure Refines (S : Scheduler θ κ ι) (allowed : ι → Prop) (accesses : List (Access ι)) (s : Process θ κ)
    (turns : List (List CosMsg × ι)) (l₀ : Lord θ κ) : Prop where
  channel : s.channel.Inv
  inputs : (turns.map Prod.snd).Sublist (accesses.filterMap Access.input?)
  messages : ∃ batch, s.channel.consumed = turns.flatMap Prod.fst ++ batch ∧ Explains S allowed l₀ batch s

namespace Refines

variable {accesses : List (Access ι)} {turns : List (List CosMsg × ι)} {l₀ : Lord θ κ}

theorem inputs_snoc (h : Refines S allowed accesses s turns l₀) (access : Access ι) :
    (turns.map Prod.snd).Sublist ((accesses ++ [access]).filterMap Access.input?) := by
  rw [List.filterMap_append]
  exact h.inputs.trans (List.sublist_append_left _ _)

theorem kernel (h : Refines S allowed accesses s turns l₀) {action : Channel.Action} {channel : Channel}
    (hkernel : action ≠ .consume) (hstep : Channel.CarefulStep s.channel action channel) :
    Refines S allowed (accesses ++ [.kernel action]) { s with channel } turns l₀ where
  channel := h.channel.step hstep.1 hstep.2
  inputs := h.inputs_snoc _
  messages := by
    obtain ⟨batch, hconsumed, hexplains⟩ := h.messages
    exact ⟨batch, (Channel.kernel_frame hstep.1 hkernel).1.trans hconsumed, hexplains⟩

/-- An access of `main` that is not a whole call of `schedule` extends the batch. -/
theorem reads (h : Refines S allowed accesses s turns l₀) (input : ι) {batch : List CosMsg}
    (hmessages : t.channel.consumed = turns.flatMap Prod.fst ++ batch) (hchannel : t.channel.Inv)
    (hexplains : Explains S allowed l₀ batch t) : Refines S allowed (accesses ++ [Access.main input]) t turns l₀ :=
  ⟨hchannel, h.inputs_snoc _, batch, hmessages, hexplains⟩

/-- A call of `schedule` that returns ends a turn. -/
theorem ends_turn (h : Refines S allowed accesses s turns l₀) {input : ι} {batch : List CosMsg} {lord : Lord θ κ}
    (hconsumed : s.channel.consumed = turns.flatMap Prod.fst ++ batch) :
    Refines S allowed (accesses ++ [Access.main input]) { s with lord, pc := .consumeMessage }
      (turns ++ [(batch, input)]) lord where
  channel := h.channel
  inputs := by
    rw [List.filterMap_append, List.map_append]
    exact h.inputs.append (by simp [Access.input?])
  messages := ⟨[], by simpa using hconsumed, rfl⟩

/-- Each step is the end of a turn, or goes on with one. -/
theorem step (h : Refines S allowed accesses s turns l₀) {access : Access ι} (hstep : Step S allowed s access t) :
    ∃ more l₁, Runs (S.TurnUnder allowed) l₀ more l₁ ∧
      Refines S allowed (accesses ++ [access]) t (turns ++ more) l₁ := by
  cases hstep with
  | kernel hkernel hstep => exact ⟨[], l₀, .nil, by simpa using h.kernel hkernel hstep⟩
  | @main input hinput =>
    obtain ⟨batch, hconsumed, hexplains⟩ := h.messages
    have hinv := h.channel.consume
    have htaken := s.channel.consumed_consume
    rcases main_cases S input s with ⟨hpc, -, heq⟩ | ⟨hpc, -, hnone, heq⟩ | ⟨msg, hpc, -, hsome, hhandled⟩ |
      ⟨hpc, hscheduled⟩ | ⟨stop, hpc, heq⟩
    · have hlord : l₀.consumeMessage batch = .ok s.lord := by simpa only [Explains, hpc] using hexplains
      refine ⟨[], l₀, .nil, ?_⟩
      rw [List.append_nil, heq]
      exact h.reads input hconsumed h.channel hlord
    · have hlord : l₀.consumeMessage batch = .ok s.lord := by simpa only [Explains, hpc] using hexplains
      rw [hnone, Option.toList_none, List.append_nil] at htaken
      refine ⟨[], l₀, .nil, ?_⟩
      rw [List.append_nil, heq]
      exact h.reads input (htaken.trans hconsumed) hinv (by simpa only [Explains, hpc] using hlord)
    · have hlord : l₀.consumeMessage batch = .ok s.lord := by simpa only [Explains, hpc] using hexplains
      rw [hsome, Option.toList_some, hconsumed, List.append_assoc] at htaken
      refine ⟨[], l₀, .nil, ?_⟩
      rw [List.append_nil]
      rcases hhandled with ⟨lord, hok, heq⟩ | ⟨stop, herror, heq⟩
      · rw [heq]
        have hnext := Lord.consumeMessage_concat_ok hlord hok
        exact h.reads input htaken hinv (by simpa only [Explains, hpc] using hnext)
      · rw [heq]
        exact h.reads input htaken hinv (.inl (Lord.consumeMessage_concat_error hlord herror))
    · have hlord : l₀.consumeMessage batch = .ok s.lord := by simpa only [Explains, hpc] using hexplains
      rcases hscheduled with ⟨lord, hok, heq⟩ | ⟨stop, herror, heq⟩
      · refine ⟨[(batch, input)], lord, Runs.nil.snoc ⟨hinput, s.lord, hlord, hok⟩, ?_⟩
        rw [heq]
        exact h.ends_turn hconsumed
      · refine ⟨[], l₀, .nil, ?_⟩
        rw [List.append_nil, heq]
        exact h.reads input hconsumed h.channel (.inr ⟨input, s.lord, hinput, hlord, herror⟩)
    · refine ⟨[], l₀, .nil, ?_⟩
      rw [List.append_nil, heq]
      exact h.reads input hconsumed h.channel hexplains

end Refines

/-- **Every interleaving of the kernel and `main` is a sequence of turns.** The messages of the turns and of the batch under way are, in order, those the kernel published; the rounds read inputs of `main` in their order; and a stopped process has stopped in the batch or in the call of `schedule` after it. -/
theorem process_takes_turns (S : Scheduler θ κ ι) (allowed : ι → Prop) (lordCpu : Int) (lordPid : UInt32)
    (data : Fin mqDataSize → CosMsg) {accesses : List (Access ι)} {s : Process θ κ}
    (hrun : Runs (Step S allowed) (init S lordCpu lordPid data) accesses s) :
    ∃ turns l₀ batch, Runs (S.TurnUnder allowed) (Lord.new S.cpuNum lordCpu lordPid) turns l₀ ∧
      (turns.map Prod.snd).Sublist (accesses.filterMap Access.input?) ∧
      turns.flatMap Prod.fst ++ batch <+: s.channel.produced ∧ s.channel.consumed = turns.flatMap Prod.fst ++ batch ∧
      Explains S allowed l₀ batch s := by
  obtain ⟨turns, l₀, hturns, hrefines⟩ := hrun.simulate (Q := S.TurnUnder allowed) (E := Refines S allowed)
    (p := Lord.new S.cpuNum lordCpu lordPid) ⟨.init data, by simp, [], rfl, rfl⟩
    fun _ _ _ _ _ _ hrel hstep => hrel.step hstep
  obtain ⟨batch, hconsumed, hexplains⟩ := hrefines.messages
  exact ⟨turns, l₀, batch, hturns, hrefines.inputs, hconsumed ▸ hrefines.channel.delivered, hconsumed, hexplains⟩

/-- The kernel announces task `10`, `main` reads the message, finds the queue empty and calls `schedule`. -/
theorem process_takes_turns_first :
    ∃ s, Runs (Step (fifo 2) ShootAnswer.Clean) (init (fifo 2) 0 1 fun _ => default)
        (.kernel (.write ⟨10, 3, 1⟩) :: .kernel .publish :: List.replicate 6 (.main ⟨0, ∅⟩)) s ∧
      s.lord.status 10 = some .onCpu ∧ ∃ turns l₀ batch,
        Runs ((fifo 2).TurnUnder ShootAnswer.Clean) (Lord.new 2 0 1) turns l₀ ∧
        turns.flatMap Prod.fst ++ batch = [⟨10, 3, 1⟩] := by
  have hclean : ShootAnswer.Clean ⟨0, ∅⟩ := fun _ => rfl
  have hrun : Runs (Step (fifo 2) ShootAnswer.Clean) (init (fifo 2) 0 1 fun _ => default)
      (.kernel (.write ⟨10, 3, 1⟩) :: .kernel .publish :: List.replicate 6 (.main ⟨0, ∅⟩)) _ :=
    .cons (.kernel (by simp) ⟨.write rfl (by decide : 0 < 511), fun _ _ _ => by decide⟩)
      (.cons (.kernel (by simp) ⟨.publish rfl, by simp⟩)
        (.cons (.main hclean) (.cons (.main hclean) (.cons (.main hclean) (.cons (.main hclean)
          (.cons (.main hclean) (.cons (.main hclean) .nil)))))))
  obtain ⟨turns, l₀, batch, hturns, -, -, hconsumed, -⟩ := process_takes_turns (fifo 2) ShootAnswer.Clean 0 1 _ hrun
  exact ⟨_, hrun, rfl, turns, l₀, batch, hturns, hconsumed.symm.trans rfl⟩

end Process

end CosUserspace
