import CosUserspace.Library.Runs
import CosUserspace.Lord.Assignment

/-!
# One call of `schedule`

`Shot` says what a whole call has made of the tables: the shots that took have moved their task and marked their CPU, the others left their task Queued and their CPU with the record saved for it, and nothing else changed. A scheduler that follows a `Discipline` makes every call on a sound lord a `Shot`, so what holds of both lords is proved once, from the discipline.
-/

namespace CosUserspace

variable {θ κ ι : Type}

/-- The shot onto `cpu` took. -/
def ShootAnswer.Took (answer : ShootAnswer) (cpu : Nat) : Prop := answer.err = 0 ∧ cpu ∉ answer.flags

instance (answer : ShootAnswer) (cpu : Nat) : Decidable (answer.Took cpu) := inferInstanceAs (Decidable (_ ∧ _))

theorem ShootAnswer.Success.took {answer : ShootAnswer} (h : answer.Success) (cpu : Nat) : answer.Took cpu :=
  ⟨h.1, by simp [h.2]⟩

namespace Round.Fits

variable {cpuNum : Nat} {r : Round κ} {l : Lord θ κ} {answer : ShootAnswer} {cpu : Nat} {pid : UInt32}

theorem failed_iff (hfits : r.Fits cpuNum l) (hpair : (cpu, pid) ∈ r.pairs) :
    (cpu, pid) ∈ r.failed cpuNum answer ↔ ¬ answer.Took cpu := by
  rw [hfits.mem_failed, ShootAnswer.Took, not_and_or, not_not]
  exact ⟨And.right, fun h => ⟨hpair, h⟩⟩

theorem failed_cpu_iff (hfits : r.Fits cpuNum l) (hpair : (cpu, pid) ∈ r.pairs) :
    cpu ∈ (r.failed cpuNum answer).map Prod.fst ↔ ¬ answer.Took cpu := by
  rw [← hfits.failed_iff hpair]
  refine ⟨fun hmem => ?_, fun hmem => List.mem_map.mpr ⟨_, hmem, rfl⟩⟩
  obtain ⟨⟨c, p⟩, hfailed, rfl⟩ := List.mem_map.mp hmem
  have hsame := List.inj_on_of_nodup_map hfits.pairs_nodup hpair (hfits.mem_failed.mp hfailed).1 rfl
  exact hsame ▸ hfailed

theorem failed_pid_iff (hfits : r.Fits cpuNum l) (hpair : (cpu, pid) ∈ r.pairs) :
    pid ∈ (r.failed cpuNum answer).map Prod.snd ↔ ¬ answer.Took cpu := by
  rw [← hfits.failed_iff hpair]
  refine ⟨fun hmem => ?_, fun hmem => List.mem_map.mpr ⟨_, hmem, rfl⟩⟩
  obtain ⟨⟨c, p⟩, hfailed, rfl⟩ := List.mem_map.mp hmem
  have hcpu : c = cpu := hfits.cpu_unique (hfits.mem_failed.mp hfailed).1 hpair
  exact hcpu ▸ hfailed

theorem failed_perm (hfits : r.Fits cpuNum l) (answer : ShootAnswer) :
    (r.failed cpuNum answer).Perm (r.pairs.filter fun shot => ¬ answer.Took shot.1) := by
  have hpairs : r.pairs.Nodup := List.Nodup.of_map Prod.fst hfits.pairs_nodup
  have hfailed : (r.failed cpuNum answer).Nodup := List.Nodup.of_map Prod.snd (hfits.failed_nodup answer)
  rw [List.perm_ext_iff_of_nodup hfailed (hpairs.filter _)]
  intro shot
  by_cases hpair : shot ∈ r.pairs
  · simp [hfits.failed_iff hpair, hpair]
  · simp [hpair, mt (fun hmem => (hfits.mem_failed.mp hmem).1) hpair]

/-- The failed shots of a round on ascending CPUs are in the order of the round. -/
theorem failed_eq_filter (hfits : r.Fits cpuNum l) (hascending : (r.pairs.map Prod.fst).Pairwise (· < ·))
    (answer : ShootAnswer) : r.failed cpuNum answer = r.pairs.filter fun shot => ¬ answer.Took shot.1 := by
  have hpairs : r.pairs.Pairwise fun shot shot' => shot.1 < shot'.1 := List.pairwise_map.mp hascending
  have hfailed : (r.failed cpuNum answer).Pairwise fun shot shot' => shot.1 < shot'.1 := by
    unfold failed
    split
    · exact hpairs
    · apply List.pairwise_lt_range.filterMap
      intro cpu cpu' hlt shot hshot shot' hshot'
      simp only [Option.ite_none_right_eq_some, Option.map_eq_some_iff] at hshot hshot'
      obtain ⟨-, _, -, rfl⟩ := hshot
      obtain ⟨-, _, -, rfl⟩ := hshot'
      exact hlt
  apply (hfits.failed_perm answer).eq_of_pairwise _ hfailed (hpairs.filter _)
  intro shot shot' _ _ hlt hgt
  omega

theorem failed_subset (hfits : r.Fits cpuNum l) :
    (r.failed cpuNum answer).map Prod.fst ⊆ r.pairs.map Prod.fst ∧
      (r.failed cpuNum answer).map Prod.snd ⊆ r.pairs.map Prod.snd := by
  have hsubset : r.failed cpuNum answer ⊆ r.pairs := fun shot hmem => (hfits.mem_failed.mp hmem).1
  exact ⟨List.map_subset _ hsubset, List.map_subset _ hsubset⟩

end Round.Fits

/-- From `l` to `l'` the round `r` was assigned and shot, and its failed shots were rolled back. -/
structure Shot (now : θ) (mark : UInt32 → κ) (saved : Nat → κ) (avail : Nat → Prop) (answer : ShootAnswer)
    (l l' : Lord θ κ) (r : Round κ) : Prop where
  lordCpu_eq : l'.lordCpu = l.lordCpu
  lordPid_eq : l'.lordPid = l.lordPid
  cpus_nodup : (r.pairs.map Prod.fst).Nodup
  avail : ∀ cpu pid, (cpu, pid) ∈ r.pairs → avail cpu
  nonzero : ∀ cpu pid, (cpu, pid) ∈ r.pairs → pid ≠ 0
  queued : ∀ cpu pid, (cpu, pid) ∈ r.pairs → l.status pid = some .queued
  shotTask : ∀ cpu pid, (cpu, pid) ∈ r.pairs → ∀ task, l.aliveTasks pid = some task →
    l'.aliveTasks pid = some { task.shootOn now cpu with state := if answer.Took cpu then .onCpu else .queued }
  shotCpu : ∀ cpu pid, (cpu, pid) ∈ r.pairs →
    l'.cpuStates.cell cpu = if answer.Took cpu then mark pid else saved cpu
  otherTask : ∀ tid, tid ∉ r.pairs.map Prod.snd → l'.aliveTasks tid = l.aliveTasks tid
  otherCpu : ∀ cpu, cpu ∉ r.pairs.map Prod.fst → l'.cpuStates.cell cpu = l.cpuStates.cell cpu

namespace Shot

variable {now : θ} {mark : UInt32 → κ} {saved : Nat → κ} {avail : Nat → Prop} {answer : ShootAnswer}
  {l l' : Lord θ κ} {r : Round κ}

theorem not_shot (h : Shot now mark saved avail answer l l' r) {tid : UInt32}
    (hstatus : l.status tid ≠ some .queued) : tid ∉ r.pairs.map Prod.snd := by
  intro hmem
  obtain ⟨⟨cpu, pid⟩, hpair, rfl⟩ := List.mem_map.mp hmem
  exact hstatus (h.queued cpu pid hpair)

/-- A task that is OnCpu before the call keeps its record. -/
theorem stays (h : Shot now mark saved avail answer l l' r) {tid : UInt32} {task : Task θ}
    (halive : l.aliveTasks tid = some task) (honCpu : task.state = .onCpu) :
    l'.aliveTasks tid = some task := by
  have hstatus := Lord.status_of_aliveTasks halive
  rw [h.otherTask tid (h.not_shot (by simp [hstatus, honCpu]))]
  exact halive

theorem onCpu_cases (h : Shot now mark saved avail answer l l' r) {tid : UInt32} {task : Task θ}
    (halive : l'.aliveTasks tid = some task) (honCpu : task.state = .onCpu) :
    (∃ cpu, (cpu, tid) ∈ r.pairs ∧ answer.Took cpu ∧ task.cpuId = cpu) ∨ l.aliveTasks tid = some task := by
  by_cases hmem : tid ∈ r.pairs.map Prod.snd
  · obtain ⟨⟨cpu, pid⟩, hpair, rfl⟩ := List.mem_map.mp hmem
    obtain ⟨old, hold, -⟩ := Lord.status_eq_some.mp (h.queued cpu pid hpair)
    obtain rfl := Option.some.inj ((h.shotTask cpu pid hpair old hold).symm.trans halive)
    refine .inl ⟨cpu, hpair, ?_, rfl⟩
    by_contra htook
    simp [htook] at honCpu
  · exact .inr ((h.otherTask tid hmem).symm.trans halive)

/-- The life of a task in one call: only a Queued task changes, and it becomes OnCpu. -/
theorem status_cases (h : Shot now mark saved avail answer l l' r) (tid : UInt32) :
    l'.status tid = l.status tid ∨ l.status tid = some .queued ∧ l'.status tid = some .onCpu := by
  by_cases hmem : tid ∈ r.pairs.map Prod.snd
  · obtain ⟨⟨cpu, pid⟩, hpair, rfl⟩ := List.mem_map.mp hmem
    have hqueued := h.queued cpu pid hpair
    obtain ⟨old, hold, -⟩ := Lord.status_eq_some.mp hqueued
    have hafter := Lord.status_of_aliveTasks (h.shotTask cpu pid hpair old hold)
    by_cases htook : answer.Took cpu
    · exact .inr ⟨hqueued, by simpa [htook] using hafter⟩
    · exact .inl (by simpa [htook, hqueued] using hafter)
  · exact .inl (by rw [Lord.status, Lord.status, h.otherTask tid hmem])

end Shot

theorem Assigned.shot {now : θ} {mark : UInt32 → κ} {saved : Nat → κ} {avail : Nat → Prop} {answer : ShootAnswer}
    {cpuNum : Nat} {l l₁ : Lord θ κ} {r : Round κ} (h : Assigned now mark saved avail l l₁ r)
    (hsound : l.Sound cpuNum) (hfits : r.Fits cpuNum l₁) (sa : CosShootArea) :
    Shot now mark saved avail answer l
      { l₁.undo r.oldCpuStates (r.failed cpuNum answer) with sa } r := by
  constructor
  case lordCpu_eq => exact h.lordCpu_eq
  case lordPid_eq => exact h.lordPid_eq
  case cpus_nodup => exact h.cpus_nodup
  case avail => exact fun cpu pid hpair => h.avail cpu (List.mem_map.mpr ⟨_, hpair, rfl⟩)
  case nonzero => exact fun cpu pid hpair => h.nonzero pid (List.mem_map.mpr ⟨_, hpair, rfl⟩)
  case queued =>
    intro cpu pid hpair
    refine (hsound.tracks.mem_iff pid).mp (h.queue.mem_iff.mpr (List.mem_append_left _ ?_))
    exact List.mem_map.mpr ⟨_, hpair, rfl⟩
  case shotTask =>
    intro cpu pid hpair task halive
    obtain ⟨old, hbefore, hafter⟩ := h.placed cpu pid hpair
    obtain rfl := Option.some.inj (halive.symm.trans hbefore)
    simp only [Lord.undo, Lord.restore, Lord.putBack, hfits.failed_pid_iff hpair, hafter]
    by_cases hshot : answer.Took cpu
    · rw [if_neg (not_not.mpr hshot), if_pos hshot]
      rfl
    · rw [if_pos hshot, if_neg hshot]
      rfl
  case shotCpu =>
    intro cpu pid hpair
    simp only [Lord.undo, Lord.restore, Lord.putBack, hfits.failed_cpu_iff hpair]
    by_cases hshot : answer.Took cpu
    · rw [if_neg (not_not.mpr hshot), if_pos hshot]
      exact h.marked cpu pid hpair
    · have hlookup : r.oldCpuStates.lookup cpu = some (saved cpu) := by
        rw [lookup_eq_some_iff_mem (hfits.saved ▸ hfits.cpus_nodup), h.old]
        exact List.mem_map.mpr ⟨_, hpair, rfl⟩
      rw [if_pos hshot, if_neg hshot, hlookup, Option.getD_some]
  case otherTask =>
    intro tid hother
    simp only [Lord.undo, Lord.restore, Lord.putBack, if_neg (mt (@(hfits.failed_subset).2 tid) hother)]
    exact h.others tid hother
  case otherCpu =>
    intro cpu hother
    simp only [Lord.undo, Lord.restore, Lord.putBack, if_neg (mt (@(hfits.failed_subset).1 cpu) hother)]
    exact h.untouched cpu hother

namespace Scheduler

/-- What makes the `assign` of a scheduler a sequence of placements. -/
structure Discipline (S : Scheduler θ κ ι) where
  /-- the `last_shoot_time` of a task that is shot -/
  now : ι → θ
  /-- the record of a CPU that a task is shot onto -/
  mark : UInt32 → κ
  /-- what is saved for the rollback of a shot onto a CPU -/
  saved : Lord θ κ → Nat → κ
  /-- the CPUs that a lord may shoot onto -/
  avail : ι → Lord θ κ → Nat → Prop
  avail_lt : ∀ input l cpu, avail input l cpu → cpu < S.cpuNum
  assigned : ∀ {input l l₁ r}, l.Sound S.cpuNum → S.assign input l = .ok (l₁, r) →
    Assigned (now input) mark (saved l) (avail input l) l l₁ r

namespace Discipline

variable {S : Scheduler θ κ ι} {l l₁ l' : Lord θ κ} {r : Round κ} {input : ι}

theorem schedule_eq (D : S.Discipline) (hsound : l.Sound S.cpuNum) (hassign : S.assign input l = .ok (l₁, r))
    (harea : r.InArea S.cpuNum (S.answer input)) (hanswer : (S.answer input).Clean) :
    ∃ sa, sa.Clear S.cpuNum ∧ S.schedule input l =
      .ok { l₁.undo r.oldCpuStates (r.failed S.cpuNum (S.answer input)) with sa } := by
  have hassigned := D.assigned hsound hassign
  have hsound₁ := hassigned.sound (D.avail_lt input l) hsound
  rw [schedule, hassign]
  exact Lord.shoot_eq harea hsound₁.capacity hsound₁.clear (hassigned.fits (D.avail_lt input l)) hanswer

theorem schedule_returns (D : S.Discipline) (hcpu : S.cpuNum ≤ shootAreaSize) (hsound : l.Sound S.cpuNum)
    (hassign : S.assign input l = .ok (l₁, r)) (hanswer : (S.answer input).Clean) :
    ∃ l', S.schedule input l = .ok l' := by
  have hfits := (D.assigned hsound hassign).fits (D.avail_lt input l)
  obtain ⟨sa, -, hok⟩ := D.schedule_eq hsound hassign (hfits.inArea hcpu _) hanswer
  exact ⟨_, hok⟩

/-- The tasks of the failed shots go to the end of the queue. -/
theorem schedule_rq (D : S.Discipline) (hsound : l.Sound S.cpuNum) (hassign : S.assign input l = .ok (l₁, r))
    (hanswer : (S.answer input).Clean) (hok : S.schedule input l = .ok l') :
    l'.rq = l₁.rq ++ (r.failed S.cpuNum (S.answer input)).map Prod.snd := by
  have hassigned := D.assigned hsound hassign
  have harea : r.InArea S.cpuNum (S.answer input) := by
    rw [schedule, hassign] at hok
    exact Lord.inArea_of_shoot (hassigned.sound (D.avail_lt input l) hsound).clear hok
  obtain ⟨sa, -, heq⟩ := D.schedule_eq hsound hassign harea hanswer
  obtain rfl := Except.ok.inj (hok.symm.trans heq)
  rfl

/-- When the kernel takes every shot, the call ends with the round as it was assigned, and its arguments in the area. -/
theorem schedule_success (D : S.Discipline) (hcpu : S.cpuNum ≤ shootAreaSize) (hsound : l.Sound S.cpuNum)
    (hassign : S.assign input l = .ok (l₁, r)) (hanswer : (S.answer input).Success) :
    ∃ sa, S.schedule input l = .ok { l₁ with sa } ∧
      r.assigned = r.pairs.map (fun (cpu, pid) => (cpu, ⟨pid, saRight⟩)) ∧
      ∀ cpu pid, (cpu, pid) ∈ r.pairs → sa.area.cell cpu = ⟨pid, saRight⟩ := by
  have hassigned := D.assigned hsound hassign
  have hfits := hassigned.fits (D.avail_lt input l)
  have hcommitted := r.assigned_eq hassigned.info
  have hclear := (hassigned.sound (D.avail_lt input l) hsound).clear
  obtain ⟨sa, hok, harea⟩ := Lord.shoot_success (hfits.inArea hcpu _) hclear hfits hanswer
  refine ⟨sa, ?_, hcommitted, fun cpu pid hpair => ?_⟩
  · rw [schedule, hassign]
    exact hok
  · apply harea (cpu, ⟨pid, saRight⟩)
    rw [hcommitted]
    exact List.mem_map.mpr ⟨_, hpair, rfl⟩

/-- The call of `shoot_task` that it makes, whatever the answer. -/
theorem shootCall_eq (D : S.Discipline) (hcpu : S.cpuNum ≤ shootAreaSize) (hsound : l.Sound S.cpuNum)
    (hassign : S.assign input l = .ok (l₁, r)) :
    ∃ call, l₁.shootCall r = .ok call ∧ (call.isSome ↔ r.pairs ≠ []) ∧
      ∀ c ∈ call, c.mask = r.assignedMask ∧
        ∀ cpu pid, (cpu, pid) ∈ r.pairs → c.sa.area.cell cpu = ⟨pid, saRight⟩ := by
  have hassigned := D.assigned hsound hassign
  have hfits := hassigned.fits (D.avail_lt input l)
  have hclear := (hassigned.sound (D.avail_lt input l) hsound).clear
  obtain ⟨call, hcall, hsome, harea⟩ := Lord.shootCall_eq (hfits.inArea hcpu (S.answer input)) hclear hfits
  refine ⟨call, hcall, hsome.trans (by simp [Round.pairs]), fun c hc => ?_⟩
  obtain ⟨hmask, hcells⟩ := harea c hc
  refine ⟨hmask, fun cpu pid hpair => hcells (cpu, ⟨pid, saRight⟩) ?_⟩
  rw [r.assigned_eq hassigned.info]
  exact List.mem_map.mpr ⟨_, hpair, rfl⟩

/-- A call of `schedule` stops where `assign` does or at the end of the area. -/
theorem schedule_error (D : S.Discipline) (hsound : l.Sound S.cpuNum) (hanswer : (S.answer input).Clean) {stop : Stop}
    (herror : S.schedule input l = .error stop) : S.assign input l = .error stop ∨ stop = .outOfRange := by
  cases hassign : S.assign input l with
  | error stop' =>
    simp only [schedule, hassign] at herror
    exact .inl (congrArg Except.error (Except.error.inj herror))
  | ok placed =>
    obtain ⟨l₁, r⟩ := placed
    have hassigned := D.assigned hsound hassign
    have hsound₁ := hassigned.sound (D.avail_lt input l) hsound
    rw [schedule, hassign] at herror
    exact .inr (Lord.shoot_error hsound₁.capacity hsound₁.clear (hassigned.fits (D.avail_lt input l)) hanswer herror)

/-- **A call of `schedule` is a shot**, and keeps the lord sound. -/
theorem shot (D : S.Discipline) (hsound : l.Sound S.cpuNum) (hanswer : (S.answer input).Clean)
    (hok : S.schedule input l = .ok l') :
    l'.Sound S.cpuNum ∧ ∃ l₁ r, S.assign input l = .ok (l₁, r) ∧
      Shot (D.now input) D.mark (D.saved l) (D.avail input l) (S.answer input) l l' r := by
  cases hassign : S.assign input l with
  | error stop => simp [schedule, hassign] at hok
  | ok placed =>
    obtain ⟨l₁, r⟩ := placed
    have hassigned := D.assigned hsound hassign
    have hfits := hassigned.fits (D.avail_lt input l)
    have hsound₁ := hassigned.sound (D.avail_lt input l) hsound
    have harea : r.InArea S.cpuNum (S.answer input) := by
      rw [schedule, hassign] at hok
      exact Lord.inArea_of_shoot hsound₁.clear hok
    obtain ⟨sa, hclear, heq⟩ := D.schedule_eq hsound hassign harea hanswer
    obtain rfl := Except.ok.inj (hok.symm.trans heq)
    have hundo := hsound₁.undo hfits (S.answer input)
    exact ⟨⟨hundo.tracks, hundo.keyed, hundo.onCpu, hundo.capacity, hclear⟩, l₁, r, rfl,
      hassigned.shot hsound hfits sa⟩

end Discipline

/-! ### Runs -/

section Runs

variable [Inhabited θ] [CpuRecord κ] (S : Scheduler θ κ ι)

/-- Any message, and `schedule` under any answer that flags nothing with an error. -/
def Clean (_ : Lord θ κ) : Op ι → Prop
  | .msg _ => True
  | .schedule input => (S.answer input).Clean

/-- Any message, and `schedule` under an answer that takes every shot. -/
def Success (_ : Lord θ κ) : Op ι → Prop
  | .msg _ => True
  | .schedule input => (S.answer input).Success

/-- The calls `ops`, one after the other. -/
def performAll : List (Op ι) → Lord θ κ → Except Stop (Lord θ κ)
  | [], l => .ok l
  | op :: ops, l =>
    match S.perform op l with
    | .error stop => .error stop
    | .ok l => performAll ops l

variable {S}

theorem runs_of_performAll {allowed : Lord θ κ → Op ι → Prop} {ops : List (Op ι)} {l l' : Lord θ κ}
    (hallowed : ∀ op ∈ ops, ∀ l, allowed l op) (hok : S.performAll ops l = .ok l') :
    Runs (S.Step allowed) l ops l' := by
  induction ops generalizing l with
  | nil =>
    obtain rfl := Except.ok.inj hok
    exact .nil
  | cons op ops ih =>
    obtain ⟨hfirst, hrest⟩ := List.forall_mem_cons.mp hallowed
    rw [performAll] at hok
    cases hstep : S.perform op l with
    | error stop => simp [hstep] at hok
    | ok l₁ =>
      rw [hstep] at hok
      exact .cons ⟨hfirst l, hstep⟩ (ih hrest hok)

omit [Inhabited θ] [CpuRecord κ] in
theorem Success.clean {l : Lord θ κ} {op : Op ι} (h : S.Success l op) : S.Clean l op := by
  cases op with
  | msg m => trivial
  | schedule input => exact ShootAnswer.Success.clean h

theorem Discipline.step (D : S.Discipline) {l l' : Lord θ κ} {op : Op ι} (hsound : l.Sound S.cpuNum)
    (hstep : S.Step S.Clean l op l') : l'.Sound S.cpuNum := by
  obtain ⟨hclean, hok⟩ := hstep
  cases op with
  | msg m => exact hsound.handle hok
  | schedule input => exact (D.shot hsound hclean hok).1

theorem Discipline.sound (D : S.Discipline) {allowed : Lord θ κ → Op ι → Prop}
    (hallowed : ∀ l op, allowed l op → S.Clean l op) {lordCpu : Int} {lordPid : UInt32} {ops : List (Op ι)}
    {l : Lord θ κ} (hrun : Runs (S.Step allowed) (Lord.new S.cpuNum lordCpu lordPid) ops l) :
    l.Sound S.cpuNum :=
  hrun.invariant (P := fun l => l.Sound S.cpuNum) (Lord.Sound.new S.cpuNum lordCpu lordPid)
    fun _ _ _ hsound hstep => D.step hsound ⟨hallowed _ _ hstep.1, hstep.2⟩

end Runs

end Scheduler

end CosUserspace
