import CosUserspace.Fifo.Lord
import CosUserspace.Shinjuku.Assignment

/-!
# Failure flags and rounds

`check_shoot_state` takes every flag down, `commit_shoot_message` those of the assigned CPUs, and the path of a `shoot_err` none. As long as no error of `shoot_task` comes with a flag, the area is clear before every round and a round finds its own flags only. A flag that is raised with an error stays up, and a later round takes it for a failed shot of its own.
-/

namespace CosUserspace

namespace Scheduler

variable {θ κ ι : Type}

/-- The round of a call and what `check_shoot_state` returns for it, when `shoot_task` accepts the round. -/
def checked (S : Scheduler θ κ ι) (input : ι) (l : Lord θ κ) : Option (Round κ × List (Nat × Int32)) :=
  match S.assign input l with
  | .error _ => none
  | .ok (l₁, r) =>
    if r.assigned.isEmpty ∨ (S.answer input).err ≠ 0 then none
    else (l₁.shotArea (S.answer input) r).bind fun sa =>
      (sa.checkShootState S.cpuNum).map fun (fail, _) => (r, fail)

theorem of_checked {S : Scheduler θ κ ι} {input : ι} {l : Lord θ κ} {r : Round κ} {fail : List (Nat × Int32)}
    (hchecked : S.checked input l = some (r, fail)) :
    ∃ l₁ sa sa', S.assign input l = .ok (l₁, r) ∧ (S.answer input).err = 0 ∧
      l₁.shotArea (S.answer input) r = some sa ∧ sa.checkShootState S.cpuNum = some (fail, sa') := by
  unfold checked at hchecked
  split at hchecked
  · cases hchecked
  · rename_i l₁ r₁ hassign
    split at hchecked
    · cases hchecked
    · rename_i haccepted
      rw [not_or, not_not] at haccepted
      obtain ⟨sa, hshot, hmap⟩ := Option.bind_eq_some_iff.mp hchecked
      obtain ⟨⟨fail', sa'⟩, hcheck, heq⟩ := Option.map_eq_some_iff.mp hmap
      obtain ⟨rfl, rfl⟩ := Prod.mk.inj heq
      exact ⟨l₁, sa, sa', hassign, haccepted.2, hshot, hcheck⟩

/-- Whatever `check_shoot_state` returns in the next call was assigned in that round, and the rollback finds its tasks. -/
def FlagsInRound (S : Scheduler θ κ ι) (l : Lord θ κ) : Prop :=
  (∀ input r fail, S.checked input l = some (r, fail) → ∀ cpu pid, (cpu, pid) ∈ fail →
    cpu ∈ r.assignedMask ∧ ∃ arg, (cpu, arg) ∈ r.assigned ∧ arg.pid.toInt32 = pid) ∧
  ∀ input l₁ r, (S.answer input).Clean → S.assign input l = .ok (l₁, r) →
    l₁.shoot S.cpuNum (S.answer input) r ≠ .error .nullRollback

namespace Discipline

variable {S : Scheduler θ κ ι} {l : Lord θ κ} {r : Round κ} {input : ι}

/-- In a sound lord the returned pairs are failed shots of the round. -/
theorem fail_eq (D : S.Discipline) (hsound : l.Sound S.cpuNum) {fail : List (Nat × Int32)}
    (hchecked : S.checked input l = some (r, fail)) :
    ∃ l₁ : Lord θ κ, r.Fits S.cpuNum l₁ ∧ S.cpuNum ≤ shootAreaSize ∧
      fail = (r.failed S.cpuNum (S.answer input)).map fun (cpu, pid) => (cpu, pid.toInt32) := by
  obtain ⟨l₁, sa, sa', hassign, haccepted, hshot, hcheck⟩ := of_checked hchecked
  have hassigned := D.assigned hsound hassign
  have hfits := hassigned.fits (D.avail_lt input l)
  have hclear := (hassigned.sound (D.avail_lt input l) hsound).clear
  have hbound := Lord.shotArea_bound hshot
  obtain ⟨sa₁, hsa₁, -, hcapacity, hcell⟩ := Lord.shotArea_eq (S.answer input) hbound
  obtain rfl := Option.some.inj (hshot.symm.trans hsa₁)
  rw [hclear.capacity] at hcapacity
  have hcpu := CosShootArea.checkShootState_bound hcapacity (by rw [hcheck]; rfl)
  obtain ⟨_, -, -, hflagged⟩ := CosShootArea.checkShootState_eq hcapacity hcpu
  obtain ⟨rfl, -⟩ := Prod.mk.inj (Option.some.inj (hcheck.symm.trans hflagged))
  exact ⟨l₁, hfits, hcpu, Lord.flagged_eq hcpu hclear hfits haccepted hcell⟩

theorem flagsInRound (D : S.Discipline) (hsound : l.Sound S.cpuNum) : S.FlagsInRound l := by
  constructor
  · intro input r fail hchecked cpu pid hmem
    obtain ⟨l₁, hfits, hcpu, rfl⟩ := D.fail_eq hsound hchecked
    obtain ⟨⟨c, p⟩, hfailed, heq⟩ := List.mem_map.mp hmem
    obtain ⟨rfl, rfl⟩ := Prod.mk.inj heq
    obtain ⟨arg, harg, rfl⟩ := Round.mem_pairs.mp (hfits.mem_failed.mp hfailed).1
    have hbit : c < cpuSetSize :=
      Nat.lt_of_lt_of_le (hfits.bound _ harg) (Nat.le_trans hcpu (by decide))
    exact ⟨(hfits.mask c hbit).mpr (List.mem_map.mpr ⟨_, harg, rfl⟩), arg, harg, rfl⟩
  · intro input l₁ r hanswer hassign herror
    have hassigned := D.assigned hsound hassign
    have hsound₁ := hassigned.sound (D.avail_lt input l) hsound
    cases Lord.shoot_error hsound₁.capacity hsound₁.clear (hassigned.fits (D.avail_lt input l)) hanswer herror

end Discipline

/-- **As long as no error flags a CPU**, whatever messages arrive and whichever rounds fail, both lords find in a round only its own failed shots. -/
theorem flags_in_round (cpuNum : Nat) (lordCpu : Int) (lordPid : UInt32) :
    (∀ ops l, Runs ((fifo cpuNum).Step (fifo cpuNum).Clean) (Lord.new cpuNum lordCpu lordPid) ops l →
      (fifo cpuNum).FlagsInRound l) ∧
    ∀ ops l, Runs ((shinjuku cpuNum).Step (shinjuku cpuNum).Clean) (Lord.new cpuNum lordCpu lordPid) ops l →
      (shinjuku cpuNum).FlagsInRound l := by
  constructor
  · intro ops l hrun
    exact (fifoDiscipline cpuNum).flagsInRound ((fifoDiscipline cpuNum).sound (fun _ _ h => h) hrun)
  · intro ops l hrun
    exact (shinjukuDiscipline cpuNum).flagsInRound ((shinjukuDiscipline cpuNum).sound (fun _ _ h => h) hrun)

theorem flags_in_round_first :
    (∃ l, Runs ((fifo 3).Step (fifo 3).Clean) (Lord.new 3 0 1) [.msg ⟨10, 3, 1⟩, .schedule ⟨-1, ∅⟩] l ∧
      (fifo 3).FlagsInRound l) ∧
    ∃ l, Runs ((shinjuku 4).Step (shinjuku 4).Clean) (Lord.new 4 0 1)
        [.msg ⟨10, 3, 1⟩, .schedule ⟨1000, .init, ⟨-1, ∅⟩⟩] l ∧ (shinjuku 4).FlagsInRound l := by
  have hfifo : Runs ((fifo 3).Step (fifo 3).Clean) (Lord.new 3 0 1) [.msg ⟨10, 3, 1⟩, .schedule ⟨-1, ∅⟩] _ :=
    .cons ⟨trivial, rfl⟩ (.cons ⟨fun _ => rfl, rfl⟩ .nil)
  have hshinjuku : Runs ((shinjuku 4).Step (shinjuku 4).Clean) (Lord.new 4 0 1)
      [.msg ⟨10, 3, 1⟩, .schedule ⟨1000, .init, ⟨-1, ∅⟩⟩] _ :=
    .cons ⟨trivial, rfl⟩ (.cons ⟨fun _ => rfl, rfl⟩ .nil)
  exact ⟨⟨_, hfifo, (flags_in_round 3 0 1).1 _ _ hfifo⟩, _, hshinjuku, (flags_in_round 4 0 1).2 _ _ hshinjuku⟩

/-- CPU `1` is flagged with an error. The next round shoots task `10` onto CPU `2`, and `check_shoot_state` returns the task for CPU `1`. -/
theorem flag_outlives_round :
    ∃ l : FifoLord, Runs ((fifo 3).Step fun _ _ => True) (Lord.new 3 0 1)
        [.msg ⟨10, 3, 1⟩, .schedule ⟨-1, {1}⟩] l ∧
      (∃ r, (fifo 3).checked ⟨0, ∅⟩ l = some (r, [(1, 10)]) ∧ 1 ∉ r.assignedMask) ∧
      ¬ (fifo 3).FlagsInRound l := by
  obtain ⟨l, hl⟩ : ∃ l, (fifo 3).performAll [.msg ⟨10, 3, 1⟩, .schedule ⟨-1, {1}⟩] (Lord.new 3 0 1) = .ok l :=
    ⟨_, rfl⟩
  have hfacts : ((fifo 3).performAll [.msg ⟨10, 3, 1⟩, .schedule ⟨-1, {1}⟩] (Lord.new 3 0 1)).map
      (fun l => ((fifo 3).checked ⟨0, ∅⟩ l).map fun (r, fail) => (decide (1 ∈ r.assignedMask), fail)) =
      .ok (some (false, [(1, 10)])) := rfl
  rw [hl] at hfacts
  obtain ⟨⟨r, fail⟩, hchecked, hround⟩ := Option.map_eq_some_iff.mp (Except.ok.inj hfacts)
  obtain ⟨hmask, rfl⟩ := Prod.mk.inj hround
  have hnotMem : 1 ∉ r.assignedMask := of_decide_eq_false hmask
  refine ⟨l, runs_of_performAll (by simp) hl, ⟨r, hchecked, hnotMem⟩, fun hflags => ?_⟩
  exact hnotMem (hflags.1 _ r _ hchecked 1 10 (by simp)).1

end Scheduler

end CosUserspace
