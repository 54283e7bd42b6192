import CosUserspace.Fifo.Invariant
import CosUserspace.Process.Refinement

/-!
# The process is safe

What every handler and every call of `schedule` keeps holds of the lord in every interleaving of `main` with the kernel. For `FifoLord` this is the agreement of its tables, and it leaves one reason to stop: a message that the life of its task does not admit, and that is the last one consumed.
-/

namespace CosUserspace

theorem Lord.consumeMessage_singleton {θ κ : Type} [Inhabited θ] [CpuRecord κ] (l : Lord θ κ) (m : CosMsg) :
    l.consumeMessage [m] =
      if m.pid.toUInt32 = l.lordPid then .ok l else ({ l with seq := m.seq } : Lord θ κ).handle m := by
  rw [consumeMessage]
  split
  · rfl
  · cases ({ l with seq := m.seq } : Lord θ κ).handle m <;> rfl

namespace Process

variable {θ κ ι : Type} [Inhabited θ] [CpuRecord κ] {S : Scheduler θ κ ι} {allowed : ι → Prop} {s t : Process θ κ}

/-- The lord satisfies `P`, and a stopped process names the call that did not return. -/
structure Keeps (S : Scheduler θ κ ι) (allowed : ι → Prop) (P : Lord θ κ → Prop) (s : Process θ κ) : Prop where
  lord : P s.lord
  stop : ∀ stop, s.pc = .stopped stop →
    (∃ before msg, s.channel.consumed = before ++ [msg] ∧ s.lord.consumeMessage [msg] = .error stop) ∨
      ∃ input, allowed input ∧ S.schedule input s.lord = .error stop

section Rule

variable {P : Lord θ κ → Prop}

theorem Keeps.of_running (hlord : P s.lord) (hrunning : s.pc = .consumeMessage ∨ s.pc = .schedule) :
    Keeps S allowed P s where
  lord := hlord
  stop stop hpc := by rcases hrunning with hrunning | hrunning <;> rw [hrunning] at hpc <;> cases hpc

theorem Keeps.step (h : Keeps S allowed P s) {access : Access ι}
    (hmsg : ∀ l m l', P l → l.consumeMessage [m] = .ok l' → P l')
    (hschedule : ∀ input l l', allowed input → P l → S.schedule input l = .ok l' → P l')
    (hstep : Step S allowed s access t) : Keeps S allowed P t := by
  cases hstep with
  | kernel hkernel hstep =>
    refine ⟨h.lord, fun stop hpc => ?_⟩
    have hsame := (Channel.kernel_frame hstep.1 hkernel).1
    rcases h.stop stop hpc with ⟨before, msg, hconsumed, herror⟩ | hinput
    · exact .inl ⟨before, msg, hsame.trans hconsumed, herror⟩
    · exact .inr hinput
  | @main input hinput =>
    have htaken := s.channel.consumed_consume
    rcases main_cases S input s with ⟨hpc, -, heq⟩ | ⟨hpc, -, -, heq⟩ | ⟨msg, hpc, -, hsome, hhandled⟩ |
      ⟨hpc, hscheduled⟩ | ⟨stop, -, heq⟩
    · rw [heq]
      exact .of_running h.lord (.inr rfl)
    · rw [heq]
      exact .of_running h.lord (.inl hpc)
    · rcases hhandled with ⟨lord, hok, heq⟩ | ⟨stop, herror, heq⟩
      · rw [heq]
        exact .of_running (hmsg _ _ _ h.lord hok) (.inl hpc)
      · rw [heq]
        rw [hsome] at htaken
        refine ⟨h.lord, fun stop' hpc' => .inl ⟨_, msg, htaken, ?_⟩⟩
        exact herror.trans (congrArg _ (MainPc.stopped.inj hpc'))
    · rcases hscheduled with ⟨lord, hok, heq⟩ | ⟨stop, herror, heq⟩
      · rw [heq]
        exact .of_running (hschedule _ _ _ hinput h.lord hok) (.inl rfl)
      · rw [heq]
        refine ⟨h.lord, fun stop' hpc' => .inr ⟨input, hinput, ?_⟩⟩
        exact herror.trans (congrArg _ (MainPc.stopped.inj hpc'))
    · rw [heq]
      exact h

/-- What the calls keep holds of the lord in every interleaving. -/
theorem keeps_of_runs {lordCpu : Int} {lordPid : UInt32} {data : Fin mqDataSize → CosMsg} {accesses : List (Access ι)}
    (hstart : P (.new S.cpuNum lordCpu lordPid)) (hmsg : ∀ l m l', P l → l.consumeMessage [m] = .ok l' → P l')
    (hschedule : ∀ input l l', allowed input → P l → S.schedule input l = .ok l' → P l')
    (hrun : Runs (Step S allowed) (init S lordCpu lordPid data) accesses s) : Keeps S allowed P s :=
  hrun.invariant (.of_running hstart (.inl rfl)) fun _ _ _ h hstep => h.step hmsg hschedule hstep

end Rule

end Process

/-! ### The FIFO scheduler -/

namespace FifoLord

variable {cpuNum : Nat} {lordCpu : Int} {l l' : FifoLord} {m : CosMsg}

theorem Inv.withSeq (hinv : Inv cpuNum lordCpu l) (seq : UInt32) : Inv cpuNum lordCpu { l with seq } where
  sound := ⟨hinv.sound.tracks, hinv.sound.keyed, hinv.sound.onCpu, hinv.sound.capacity, hinv.sound.clear⟩
  lordCpu_eq := hinv.lordCpu_eq
  held := hinv.held
  exclusive := hinv.exclusive

theorem Inv.consumeMessage (hinv : Inv cpuNum lordCpu l) (hok : l.consumeMessage [m] = .ok l') :
    Inv cpuNum lordCpu l' := by
  rw [Lord.consumeMessage_singleton] at hok
  split at hok
  · obtain rfl := Except.ok.inj hok
    exact hinv
  · exact (hinv.withSeq m.seq).handle hok

/-- A message stops the lord only when the life of its task does not admit it. -/
theorem Inv.consumeMessage_error (hinv : Inv cpuNum lordCpu l) {stop : Stop}
    (herror : l.consumeMessage [m] = .error stop) :
    m.pid.toUInt32 ≠ l.lordPid ∧ ∃ kind, MsgType.ofCode m.type = some kind ∧
      Lifecycle.next kind (l.status m.pid.toUInt32) = .error stop := by
  rw [Lord.consumeMessage_singleton] at herror
  split at herror
  · cases herror
  · rename_i hlord
    refine ⟨hlord, ?_⟩
    rcases (hinv.withSeq m.seq).sound.handle_error herror with hlife | ⟨-, -, hlost⟩
    · exact hlife
    · simp [(hinv.withSeq m.seq).cpuLost_eq_false] at hlost

/-- `schedule` returns under every answer that flags nothing with an error. -/
theorem Inv.schedule_returns (hinv : Inv cpuNum lordCpu l) (hcpu : cpuNum ≤ shootAreaSize) {answer : ShootAnswer}
    (hanswer : answer.Clean) : ∃ l', (fifo cpuNum).schedule answer l = .ok l' := by
  obtain ⟨l₁, r, hassign, -⟩ := assign_placed hinv.sound answer
  exact (fifoDiscipline cpuNum).schedule_returns hcpu hinv.sound hassign hanswer

theorem frames (cpuNum : Nat) : (fifo cpuNum).Frames := (assigns_by_shots cpuNum).frames

end FifoLord

namespace Process

/-- **The FIFO scheduler in any interleaving with the kernel.** Its queue lists the Queued tasks, a task that is OnCpu has a COS CPU other than the lord's to itself, and the process stops in no call of `schedule`, and in `consume_message` only at the last message consumed, when that message is not about the lord and the state of its task does not admit it. -/
theorem fifo_process_safe {cpuNum : Nat} (hcpu : cpuNum ≤ shootAreaSize) (lordCpu : Int) (lordPid : UInt32)
    (data : Fin mqDataSize → CosMsg) {accesses : List (Access ShootAnswer)} {s : Process Unit Fifo.CpuState}
    (hrun : Runs (Step (fifo cpuNum) ShootAnswer.Clean) (init (fifo cpuNum) lordCpu lordPid data) accesses s) :
    (s.lord.rq.Nodup ∧ ∀ tid, tid ∈ s.lord.rq ↔ s.lord.status tid = some .queued) ∧
    (∀ tid task, s.lord.aliveTasks tid = some task → task.state = .onCpu →
      ∃ cpu : Nat, task.cpuId = cpu ∧ cpu < cpuNum ∧ (cpu : Int) ≠ lordCpu ∧ s.lord.cpuStates.cell cpu = .cos ∧
        ∀ tid' task', s.lord.aliveTasks tid' = some task' → task'.state = .onCpu → task'.cpuId = cpu → tid' = tid) ∧
    ∀ stop, s.pc = .stopped stop → ∃ before msg kind, s.channel.consumed = before ++ [msg] ∧
      msg.pid.toUInt32 ≠ lordPid ∧ MsgType.ofCode msg.type = some kind ∧
      Lifecycle.next kind (s.lord.status msg.pid.toUInt32) = .error stop := by
  have hkeeps : Keeps (fifo cpuNum) ShootAnswer.Clean
      (fun l => FifoLord.Inv cpuNum lordCpu l ∧ l.lordPid = lordPid) s := by
    refine keeps_of_runs ⟨.new cpuNum lordCpu lordPid, rfl⟩ ?_ ?_ hrun
    · exact fun l m l' hl hok => ⟨hl.1.consumeMessage hok, (Lord.consumeMessage_seq hok).1.trans hl.2⟩
    · exact fun answer l l' hanswer hl hok =>
        ⟨hl.1.schedule hanswer hok, ((FifoLord.frames cpuNum).schedule hok).lordPid_eq.trans hl.2⟩
  obtain ⟨hinv, hlordPid⟩ := hkeeps.lord
  refine ⟨⟨hinv.sound.tracks.nodup, hinv.sound.tracks.mem_iff⟩, ?_, ?_⟩
  · intro tid task halive honCpu
    obtain ⟨cpu, hcpuId, hlt⟩ := hinv.sound.onCpu tid task halive honCpu
    obtain ⟨hlord, hcos⟩ := hinv.held tid task cpu halive honCpu hcpuId
    exact ⟨cpu, hcpuId, hlt, hlord, hcos, fun tid' task' halive' honCpu' hcpu' =>
      hinv.exclusive tid' tid task' task halive' halive honCpu' honCpu (hcpu'.trans hcpuId.symm)⟩
  · intro stop hpc
    rcases hkeeps.stop stop hpc with ⟨before, msg, hconsumed, herror⟩ | ⟨answer, hanswer, herror⟩
    · obtain ⟨hlord, kind, hkind, hlife⟩ := hinv.consumeMessage_error herror
      exact ⟨before, msg, kind, hconsumed, hlordPid ▸ hlord, hkind, hlife⟩
    · obtain ⟨l', hok⟩ := hinv.schedule_returns hcpu hanswer
      rw [hok] at herror
      cases herror

/-- The second message announces task `10` again. -/
theorem fifo_process_safe_twice :
    ∃ s, Runs (Step (fifo 2) ShootAnswer.Clean) (init (fifo 2) 0 1 fun _ => default)
        (.kernel (.write ⟨10, 3, 1⟩) :: .kernel .publish :: .kernel (.write ⟨10, 3, 2⟩) :: .kernel .publish ::
          List.replicate 8 (.main ⟨0, ∅⟩)) s ∧
      s.pc = .stopped .sameNewThread ∧ (∀ tid, tid ∈ s.lord.rq ↔ s.lord.status tid = some .queued) ∧
      ∃ before msg, s.channel.consumed = before ++ [msg] ∧ msg.pid.toUInt32 ≠ 1 := by
  have hclean : ShootAnswer.Clean ⟨0, ∅⟩ := fun _ => rfl
  have hrun : Runs (Step (fifo 2) ShootAnswer.Clean) (init (fifo 2) 0 1 fun _ => default)
      (.kernel (.write ⟨10, 3, 1⟩) :: .kernel .publish :: .kernel (.write ⟨10, 3, 2⟩) :: .kernel .publish ::
        List.replicate 8 (.main ⟨0, ∅⟩)) _ :=
    .cons (.kernel (by simp) ⟨.write rfl (by decide : 0 < 511), fun _ _ _ => by decide⟩)
      (.cons (.kernel (by simp) ⟨.publish rfl, by simp⟩)
        (.cons (.kernel (by simp) ⟨.write rfl (by decide : 1 < 511), fun _ _ _ => by decide⟩)
          (.cons (.kernel (by simp) ⟨.publish rfl, by simp⟩)
            (.cons (.main hclean) (.cons (.main hclean) (.cons (.main hclean) (.cons (.main hclean)
              (.cons (.main hclean) (.cons (.main hclean) (.cons (.main hclean) (.cons (.main hclean) .nil)))))))))))
  have hsafe := fifo_process_safe (by decide) 0 1 _ hrun
  obtain ⟨before, msg, -, hconsumed, hpid, -⟩ := hsafe.2.2 .sameNewThread rfl
  exact ⟨_, hrun, rfl, hsafe.1.2, before, msg, hconsumed, hpid⟩

end Process

end CosUserspace
