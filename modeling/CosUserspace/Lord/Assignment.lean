import CosUserspace.Lord.Rollback

/-!
# Assigning a round

Both lords assign a round by taking tasks from the run queue and placing each on a CPU of its own. `Assigned` says what a sequence of such placements has made of the tables and recorded in the round; `Discipline` says of a scheduler that its `assign` is one. From there on the two lords are handled together: a round fits the lord that commits it, and `schedule` keeps the lord sound.
-/

namespace CosUserspace

variable {θ κ ι : Type}

/-- From `l` to `l'` the shots of `r` were placed: their tasks left the run queue for CPUs that satisfy `avail`, the records of these CPUs were overwritten with `mark` and what `saved` holds was kept for the rollback. -/
structure Assigned (now : θ) (mark : UInt32 → κ) (saved : Nat → κ) (avail : Nat → Prop)
    (l l' : Lord θ κ) (r : Round κ) : Prop where
  lordCpu_eq : l'.lordCpu = l.lordCpu
  lordPid_eq : l'.lordPid = l.lordPid
  seq_eq : l'.seq = l.seq
  sa_eq : l'.sa = l.sa
  capacity_eq : l'.cpuStates.capacity = l.cpuStates.capacity
  queue : l.rq.Perm (r.pairs.map Prod.snd ++ l'.rq)
  placed : ∀ cpu pid, (cpu, pid) ∈ r.pairs → ∃ task, l.aliveTasks pid = some task ∧
    l'.aliveTasks pid = some (task.shootOn now cpu)
  others : ∀ tid, tid ∉ r.pairs.map Prod.snd → l'.aliveTasks tid = l.aliveTasks tid
  marked : ∀ cpu pid, (cpu, pid) ∈ r.pairs → l'.cpuStates.cell cpu = mark pid
  untouched : ∀ cpu, cpu ∉ r.pairs.map Prod.fst → l'.cpuStates.cell cpu = l.cpuStates.cell cpu
  cpus_nodup : (r.pairs.map Prod.fst).Nodup
  avail : ∀ cpu ∈ r.pairs.map Prod.fst, avail cpu
  nonzero : ∀ tid ∈ r.pairs.map Prod.snd, tid ≠ 0
  info : ∀ entry ∈ r.assigned, entry.2.info = saRight
  old : r.oldCpuStates = r.pairs.map fun (cpu, _) => (cpu, saved cpu)
  mask : ∀ cpu < cpuSetSize, cpu ∈ r.assignedMask ↔ cpu ∈ r.pairs.map Prod.fst

namespace Round

@[simp] theorem pairs_empty : (empty : Round κ).pairs = [] := rfl

@[simp] theorem pairs_push (r : Round κ) (cpu : Nat) (pid : UInt32) (old : κ) :
    (r.push cpu pid old).pairs = r.pairs ++ [(cpu, pid)] := by
  simp [pairs, push]

theorem mem_pairs_push {r : Round κ} {cpu c : Nat} {tid pid : UInt32} {old : κ} :
    (c, pid) ∈ (r.push cpu tid old).pairs ↔ (c, pid) ∈ r.pairs ∨ c = cpu ∧ pid = tid := by
  rw [pairs_push, List.mem_append, List.mem_singleton, Prod.mk.injEq]

theorem mem_cpus_push {r : Round κ} {cpu c : Nat} {tid : UInt32} {old : κ} :
    c ∈ (r.push cpu tid old).pairs.map Prod.fst ↔ c ∈ r.pairs.map Prod.fst ∨ c = cpu := by
  rw [pairs_push, List.map_append, List.mem_append, List.map_singleton, List.mem_singleton]

/-- The mask has a bit for the CPUs below `CPU_SETSIZE` only. -/
theorem mem_assignedMask_push {r : Round κ} {cpu c : Nat} {tid : UInt32} {old : κ} (hc : c < cpuSetSize) :
    c ∈ (r.push cpu tid old).assignedMask ↔ c ∈ r.assignedMask ∨ c = cpu := by
  by_cases hcpu : cpu < cpuSetSize
  · have hadd : (r.push cpu tid old).assignedMask = insert cpu r.assignedMask := if_pos hcpu
    rw [hadd, Finset.mem_insert, or_comm]
  · have hsame : (r.push cpu tid old).assignedMask = r.assignedMask := if_neg hcpu
    have hne : c ≠ cpu := by
      rintro rfl
      exact hcpu hc
    rw [hsame, or_iff_left hne]

theorem mem_tids_push {r : Round κ} {cpu : Nat} {tid pid : UInt32} {old : κ} :
    pid ∈ (r.push cpu tid old).pairs.map Prod.snd ↔ pid ∈ r.pairs.map Prod.snd ∨ pid = tid := by
  rw [pairs_push, List.map_append, List.mem_append, List.map_singleton, List.mem_singleton]

end Round

namespace Lord

/-- `tid` is placed on `cpu`, and `rest` is what remains of the run queue. -/
def place (now : θ) (record : κ) (cpu : Nat) (tid : UInt32) (task : Task θ) (rest : RunQueue) (l : Lord θ κ) :
    Lord θ κ :=
  { l with
    rq := rest
    aliveTasks := Function.update l.aliveTasks tid (some (task.shootOn now cpu))
    cpuStates := l.cpuStates.set cpu record }

end Lord

namespace Assigned

variable {now : θ} {mark : UInt32 → κ} {saved : Nat → κ} {avail : Nat → Prop} {l l₁ : Lord θ κ} {r : Round κ}
  {cpuNum : Nat}

theorem start : Assigned now mark saved avail l l .empty where
  lordCpu_eq := rfl
  lordPid_eq := rfl
  seq_eq := rfl
  sa_eq := rfl
  capacity_eq := rfl
  queue := by simp
  placed := by simp
  others := by simp
  marked := by simp
  untouched := by simp
  cpus_nodup := by simp
  avail := by simp
  nonzero := by simp
  info := by simp [Round.empty]
  old := rfl
  mask cpu _ := by
    rw [Round.pairs_empty]
    simp [Round.empty]

/-- A task that still waits was not placed, and its record is that of a Queued task. -/
theorem waiting (h : Assigned now mark saved avail l l₁ r) (hsound : l.Sound cpuNum) {tid : UInt32}
    (hmem : tid ∈ l₁.rq) :
    tid ∉ r.pairs.map Prod.snd ∧ ∃ task, l.aliveTasks tid = some task ∧ task.state = .queued ∧
      l₁.aliveTasks tid = some task ∧ task.pid.toUInt32 = tid := by
  have hnodup := h.queue.nodup_iff.mp hsound.tracks.nodup
  have hnew : tid ∉ r.pairs.map Prod.snd := fun hplaced =>
    (List.nodup_append.mp hnodup).2.2 tid hplaced tid hmem rfl
  have hqueued : l.status tid = some .queued :=
    (hsound.tracks.mem_iff tid).mp (h.queue.mem_iff.mpr (List.mem_append_right _ hmem))
  obtain ⟨task, halive, hstate⟩ := Lord.status_eq_some.mp hqueued
  exact ⟨hnew, task, halive, hstate, (h.others tid hnew).trans halive, hsound.keyed tid task halive⟩

theorem reorder (h : Assigned now mark saved avail l l₁ r) {rq : RunQueue} (hperm : l₁.rq.Perm rq) :
    Assigned now mark saved avail l { l₁ with rq } r :=
  { h with queue := h.queue.trans (hperm.append_left _) }

theorem place (h : Assigned now mark saved avail l l₁ r) (hsound : l.Sound cpuNum) {cpu : Nat} {tid : UInt32}
    {task : Task θ} {rest : RunQueue} (hqueue : l₁.rq.Perm (tid :: rest)) (halive : l₁.aliveTasks tid = some task)
    (hcpu : cpu ∉ r.pairs.map Prod.fst) (havail : avail cpu) (hzero : tid ≠ 0) :
    Assigned now mark saved avail l (l₁.place now (mark tid) cpu tid task rest)
      (r.push cpu tid (saved cpu)) := by
  obtain ⟨hnew, task', halive', -, hsame, -⟩ := h.waiting hsound (hqueue.mem_iff.mpr List.mem_cons_self)
  obtain rfl : task = task' := Option.some.inj (halive.symm.trans hsame)
  have hcpuNe : ∀ {c pid}, (c, pid) ∈ r.pairs → c ≠ cpu := fun hmem heq =>
    hcpu (heq ▸ List.mem_map.mpr ⟨_, hmem, rfl⟩)
  have htidNe : ∀ {c pid}, (c, pid) ∈ r.pairs → pid ≠ tid := fun hmem heq =>
    hnew (heq ▸ List.mem_map.mpr ⟨_, hmem, rfl⟩)
  constructor
  case lordCpu_eq => exact h.lordCpu_eq
  case lordPid_eq => exact h.lordPid_eq
  case seq_eq => exact h.seq_eq
  case sa_eq => exact h.sa_eq
  case capacity_eq => exact h.capacity_eq
  case queue =>
    refine h.queue.trans ((hqueue.append_left _).trans (.of_eq ?_))
    simp [Lord.place]
  case placed =>
    intro c pid hmem
    rcases Round.mem_pairs_push.mp hmem with hold | ⟨rfl, rfl⟩
    · obtain ⟨task', hbefore, hafter⟩ := h.placed c pid hold
      exact ⟨task', hbefore, (Function.update_of_ne (htidNe hold) ..).trans hafter⟩
    · exact ⟨task, halive', Function.update_self ..⟩
  case others =>
    intro t ht
    rw [Round.mem_tids_push, not_or] at ht
    exact (Function.update_of_ne ht.2 ..).trans (h.others t ht.1)
  case marked =>
    intro c pid hmem
    rcases Round.mem_pairs_push.mp hmem with hold | ⟨rfl, rfl⟩
    · exact (Buffer.set_cell_of_ne _ (hcpuNe hold)).trans (h.marked c pid hold)
    · exact Buffer.set_cell_self ..
  case untouched =>
    intro c hc
    rw [Round.mem_cpus_push, not_or] at hc
    exact (Buffer.set_cell_of_ne _ hc.2).trans (h.untouched c hc.1)
  case cpus_nodup =>
    rw [Round.pairs_push, List.map_append]
    apply List.Nodup.append h.cpus_nodup (List.nodup_singleton _)
    simpa using hcpu
  case avail =>
    intro c hc
    rcases Round.mem_cpus_push.mp hc with hold | rfl
    · exact h.avail c hold
    · exact havail
  case nonzero =>
    intro t ht
    rcases Round.mem_tids_push.mp ht with hold | rfl
    · exact h.nonzero t hold
    · exact hzero
  case info =>
    intro entry hentry
    rcases List.mem_append.mp hentry with hold | hlast
    · exact h.info entry hold
    · rw [List.mem_singleton.mp hlast]
      rfl
  case old => simp [Round.push, h.old, Round.pairs]
  case mask =>
    intro c hbit
    rw [Round.mem_cpus_push, Round.mem_assignedMask_push hbit, h.mask c hbit]

/-- An assigned round fits the lord that commits it. -/
theorem fits (h : Assigned now mark saved avail l l₁ r) (havail : ∀ cpu, avail cpu → cpu < cpuNum) :
    r.Fits cpuNum l₁ where
  cpus_nodup := by
    rw [← Round.pairs_map_fst]
    exact h.cpus_nodup
  bound entry hentry := by
    have hcpu : entry.1 ∈ r.pairs.map Prod.fst := by
      rw [Round.pairs_map_fst]
      exact List.mem_map.mpr ⟨entry, hentry, rfl⟩
    exact havail _ (h.avail _ hcpu)
  info := h.info
  saved := by
    rw [h.old, ← Round.pairs_map_fst]
    simp [Function.comp_def]
  mask cpu hbit := by
    rw [h.mask cpu hbit, Round.pairs_map_fst]
  onCpu entry hentry := by
    obtain ⟨task, -, hafter⟩ := h.placed entry.1 entry.2.pid (Round.mem_pairs.mpr ⟨entry.2, hentry, rfl⟩)
    exact ⟨_, hafter, rfl, rfl⟩

theorem sound (h : Assigned now mark saved avail l l₁ r) (havail : ∀ cpu, avail cpu → cpu < cpuNum)
    (hsound : l.Sound cpuNum) : l₁.Sound cpuNum := by
  have hplaced : ∀ tid ∈ r.pairs.map Prod.snd, ∃ cpu task, avail cpu ∧ l.aliveTasks tid = some task ∧
      l₁.aliveTasks tid = some (task.shootOn now cpu) := by
    intro tid hmem
    obtain ⟨⟨cpu, pid⟩, hpair, rfl⟩ := List.mem_map.mp hmem
    obtain ⟨task, hbefore, hafter⟩ := h.placed cpu pid hpair
    exact ⟨cpu, task, h.avail cpu (List.mem_map.mpr ⟨_, hpair, rfl⟩), hbefore, hafter⟩
  constructor
  case tracks =>
    apply hsound.tracks.remove _ h.queue
    intro tid
    by_cases hmem : tid ∈ r.pairs.map Prod.snd
    · obtain ⟨cpu, task, -, -, hafter⟩ := hplaced tid hmem
      simp [Lord.status, hafter, Task.shootOn, hmem]
    · simp only [Lord.status, h.others tid hmem, hmem, not_false_eq_true, true_and]
  case keyed =>
    intro tid task halive
    by_cases hmem : tid ∈ r.pairs.map Prod.snd
    · obtain ⟨cpu, old, -, hbefore, hafter⟩ := hplaced tid hmem
      obtain rfl := Option.some.inj (hafter.symm.trans halive)
      exact hsound.keyed tid old hbefore
    · exact hsound.keyed tid task ((h.others tid hmem).symm.trans halive)
  case onCpu =>
    intro tid task halive honCpu
    by_cases hmem : tid ∈ r.pairs.map Prod.snd
    · obtain ⟨cpu, old, hcpu, -, hafter⟩ := hplaced tid hmem
      obtain rfl := Option.some.inj (hafter.symm.trans halive)
      exact ⟨cpu, rfl, havail cpu hcpu⟩
    · exact hsound.onCpu tid task ((h.others tid hmem).symm.trans halive) honCpu
  case capacity => exact h.capacity_eq.trans hsound.capacity
  case clear =>
    rw [h.sa_eq]
    exact hsound.clear

end Assigned

/-! ### Undoing the shots that failed -/

namespace Round.Fits

variable {cpuNum : Nat} {r : Round κ} {l : Lord θ κ}

/-- A task is shot onto one CPU only, the one its record names. -/
theorem cpu_unique (hfits : r.Fits cpuNum l) {cpu cpu' : Nat} {pid : UInt32} (hpair : (cpu, pid) ∈ r.pairs)
    (hpair' : (cpu', pid) ∈ r.pairs) : cpu = cpu' := by
  obtain ⟨arg, harg, rfl⟩ := Round.mem_pairs.mp hpair
  obtain ⟨arg', harg', hpid⟩ := Round.mem_pairs.mp hpair'
  obtain ⟨task, halive, -, hcpu⟩ := hfits.onCpu _ harg
  obtain ⟨task', halive', -, hcpu'⟩ := hfits.onCpu _ harg'
  have hsame : task = task' := Option.some.inj
    (halive.symm.trans ((congrArg l.aliveTasks hpid.symm).trans halive'))
  subst hsame
  exact Int.ofNat_inj.mp (hcpu.symm.trans hcpu')

theorem failed_nodup (hfits : r.Fits cpuNum l) (answer : ShootAnswer) :
    ((r.failed cpuNum answer).map Prod.snd).Nodup := by
  have hnodup : (r.failed cpuNum answer).Nodup := by
    unfold failed
    split
    · exact List.Nodup.of_map Prod.fst hfits.pairs_nodup
    · refine List.Nodup.filterMap (fun cpu cpu' shot hshot hshot' => ?_) List.nodup_range
      simp only [Option.mem_def, Option.ite_none_right_eq_some, Option.map_eq_some_iff] at hshot hshot'
      obtain ⟨-, _, -, rfl⟩ := hshot
      obtain ⟨-, _, -, heq⟩ := hshot'
      exact (congrArg Prod.fst heq).symm
  refine List.Nodup.map_on (fun shot hshot shot' hshot' hpid => ?_) hnodup
  have hcpu := hfits.cpu_unique (hfits.mem_failed.mp hshot).1
    (hpid.symm ▸ (hfits.mem_failed.mp hshot').1 : (shot'.1, shot.2) ∈ r.pairs)
  exact Prod.ext hcpu hpid

end Round.Fits

namespace Lord

theorem Sound.undo {cpuNum : Nat} {l : Lord θ κ} {r : Round κ} (hsound : l.Sound cpuNum) (hfits : r.Fits cpuNum l)
    (answer : ShootAnswer) : (l.undo r.oldCpuStates (r.failed cpuNum answer)).Sound cpuNum := by
  have hshot : ∀ tid ∈ (r.failed cpuNum answer).map Prod.snd, l.status tid = some .onCpu := by
    intro tid hmem
    obtain ⟨⟨cpu, pid⟩, hfailed, rfl⟩ := List.mem_map.mp hmem
    obtain ⟨arg, harg, rfl⟩ := Round.mem_pairs.mp (hfits.mem_failed.mp hfailed).1
    obtain ⟨task, halive, hstate, -⟩ := hfits.onCpu _ harg
    rw [status_of_aliveTasks halive, hstate]
  have halive_undo : ∀ tid task, (l.undo r.oldCpuStates (r.failed cpuNum answer)).aliveTasks tid = some task →
      ∃ old, l.aliveTasks tid = some old ∧ task.pid = old.pid ∧ (task.state = .onCpu → task = old) := by
    intro tid task halive
    simp only [Lord.undo, restore, putBack] at halive
    split at halive
    · obtain ⟨old, hold, rfl⟩ := Option.map_eq_some_iff.mp halive
      exact ⟨old, hold, rfl, fun h => by cases h⟩
    · exact ⟨task, halive, rfl, fun _ => rfl⟩
  constructor
  case tracks =>
    refine hsound.tracks.append (hfits.failed_nodup answer) (fun tid hmem => by simp [hshot tid hmem]) fun tid => ?_
    by_cases hmem : tid ∈ (r.failed cpuNum answer).map Prod.snd
    · obtain ⟨task, halive, -⟩ := status_eq_some.mp (hshot tid hmem)
      have hafter : (l.undo r.oldCpuStates (r.failed cpuNum answer)).status tid = some .queued := by
        simp only [status, Lord.undo, restore, putBack, if_pos hmem, halive, Option.map_some]
      exact ⟨fun _ => .inl hmem, fun _ => hafter⟩
    · have hafter : (l.undo r.oldCpuStates (r.failed cpuNum answer)).status tid = l.status tid := by
        simp only [status, Lord.undo, restore, putBack, if_neg hmem]
      rw [hafter]
      exact ⟨.inr, fun h => h.resolve_left hmem⟩
  case keyed =>
    intro tid task halive
    obtain ⟨old, hold, hpid, -⟩ := halive_undo tid task halive
    rw [hpid]
    exact hsound.keyed tid old hold
  case onCpu =>
    intro tid task halive honCpu
    obtain ⟨old, hold, -, hsame⟩ := halive_undo tid task halive
    obtain rfl := hsame honCpu
    exact hsound.onCpu tid task hold honCpu
  case capacity => exact hsound.capacity
  case clear => exact hsound.clear

end Lord

end CosUserspace
