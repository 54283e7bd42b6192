import CosUserspace.Lord.Lifecycle

/-!
# What a round leaves behind

After a round is assigned and shot, `undo` puts back the tasks of the shots that failed and restores the CPU records saved for them. `shoot_eq` proves that the two rollback paths of `schedule` compute it: on an error of `shoot_task` for the whole round, otherwise for the flagged CPUs.
-/

namespace CosUserspace

theorem lookup_eq_some_iff_mem {α β : Type} [DecidableEq α] {l : List (α × β)} (hnodup : (l.map Prod.fst).Nodup)
    {a : α} {b : β} : l.lookup a = some b ↔ (a, b) ∈ l := by
  induction l with
  | nil => simp
  | cons entry l ih =>
    obtain ⟨key, value⟩ := entry
    obtain ⟨hnew, hrest⟩ := List.nodup_cons.mp hnodup
    by_cases hkey : a = key
    · subst hkey
      have habsent : (a, b) ∉ l := fun hmem => hnew (List.mem_map.mpr ⟨_, hmem, rfl⟩)
      simp [habsent, eq_comm]
    · have hbeq : (a == key) = false := by simpa using hkey
      simp [List.lookup_cons, hbeq, hkey, ih hrest]

namespace Round

variable {κ : Type}

/-- The CPU and the task of each shot. -/
def pairs (r : Round κ) : List (Nat × UInt32) := r.assigned.map fun (cpu, arg) => (cpu, arg.pid)

/-- The shots that failed: all of them when `shoot_task` returns an error, the flagged ones otherwise. -/
def failed (cpuNum : Nat) (answer : ShootAnswer) (r : Round κ) : List (Nat × UInt32) :=
  if answer.err ≠ 0 then r.pairs
  else
    (List.range cpuNum).filterMap fun cpu =>
      if cpu ∈ answer.flags then (r.pairs.lookup cpu).map (cpu, ·) else none

theorem mem_pairs {r : Round κ} {cpu : Nat} {pid : UInt32} :
    (cpu, pid) ∈ r.pairs ↔ ∃ arg, (cpu, arg) ∈ r.assigned ∧ arg.pid = pid := by
  simp [pairs]

theorem pairs_map_fst (r : Round κ) : r.pairs.map Prod.fst = r.assigned.map Prod.fst := by
  simp [pairs, Function.comp_def]

theorem pairs_map_snd (r : Round κ) : r.pairs.map Prod.snd = r.assigned.map (·.2.pid) := by
  simp [pairs, Function.comp_def]

theorem assigned_eq (r : Round κ) (hinfo : ∀ entry ∈ r.assigned, entry.2.info = saRight) :
    r.assigned = r.pairs.map fun (cpu, pid) => (cpu, ⟨pid, saRight⟩) := by
  rw [pairs, List.map_map, List.map_congr_left (g := id), List.map_id]
  intro entry hentry
  rw [← hinfo entry hentry]
  rfl

/-- A round as it is when it is committed by the lord `l`. -/
structure Fits {θ : Type} (cpuNum : Nat) (r : Round κ) (l : Lord θ κ) : Prop where
  cpus_nodup : (r.assigned.map Prod.fst).Nodup
  bound : ∀ entry ∈ r.assigned, entry.1 < cpuNum
  info : ∀ entry ∈ r.assigned, entry.2.info = saRight
  saved : r.oldCpuStates.map Prod.fst = r.assigned.map Prod.fst
  mask : ∀ cpu < cpuSetSize, cpu ∈ r.assignedMask ↔ cpu ∈ r.assigned.map Prod.fst
  onCpu : ∀ entry ∈ r.assigned, ∃ task, l.aliveTasks entry.2.pid = some task ∧
    task.state = .onCpu ∧ task.cpuId = entry.1

section Fits

variable {θ : Type} {cpuNum : Nat} {r : Round κ} {l : Lord θ κ}

theorem Fits.pairs_nodup (hfits : r.Fits cpuNum l) : (r.pairs.map Prod.fst).Nodup := by
  rw [pairs_map_fst]
  exact hfits.cpus_nodup

theorem Fits.mem_failed (hfits : r.Fits cpuNum l) {answer : ShootAnswer} {cpu : Nat} {pid : UInt32} :
    (cpu, pid) ∈ r.failed cpuNum answer ↔
      (cpu, pid) ∈ r.pairs ∧ (answer.err ≠ 0 ∨ cpu ∈ answer.flags) := by
  unfold failed
  split
  · rename_i herr
    exact ⟨fun hmem => ⟨hmem, .inl herr⟩, And.left⟩
  · rename_i herr
    have hbound : (cpu, pid) ∈ r.pairs → cpu < cpuNum := fun hpair => by
      obtain ⟨arg, harg, -⟩ := mem_pairs.mp hpair
      exact hfits.bound _ harg
    simp only [List.mem_filterMap, List.mem_range, Option.ite_none_right_eq_some, Option.map_eq_some_iff,
      Prod.mk.injEq, lookup_eq_some_iff_mem hfits.pairs_nodup]
    constructor
    · rintro ⟨c, -, hflag, p, hpair, rfl, rfl⟩
      exact ⟨hpair, .inr hflag⟩
    · rintro ⟨hpair, herr' | hflag⟩
      · exact absurd herr' herr
      · exact ⟨cpu, hbound hpair, hflag, pid, hpair, rfl, rfl⟩

theorem Fits.isSome_aliveTasks (hfits : r.Fits cpuNum l) {cpu : Nat} {pid : UInt32}
    (hpair : (cpu, pid) ∈ r.pairs) : (l.aliveTasks pid).isSome := by
  obtain ⟨arg, harg, rfl⟩ := mem_pairs.mp hpair
  obtain ⟨task, htask, -, -⟩ := hfits.onCpu _ harg
  simp [htask]

/-- The area has a cell for every CPU that the shoot of `r` accesses. -/
def InArea (cpuNum : Nat) (answer : ShootAnswer) (r : Round κ) : Prop :=
  r.assigned ≠ [] →
    (∀ entry ∈ r.assigned, entry.1 < shootAreaSize) ∧ (answer.err = 0 → cpuNum ≤ shootAreaSize)

theorem Fits.inArea (hfits : r.Fits cpuNum l) (hcpu : cpuNum ≤ shootAreaSize) (answer : ShootAnswer) :
    r.InArea cpuNum answer :=
  fun _ => ⟨fun entry hentry => Nat.lt_of_lt_of_le (hfits.bound entry hentry) hcpu, fun _ => hcpu⟩

theorem failed_eq_nil {answer : ShootAnswer} (hempty : r.assigned = []) : r.failed cpuNum answer = [] := by
  simp [failed, pairs, hempty]

theorem failed_success {answer : ShootAnswer} (hanswer : answer.Success) : r.failed cpuNum answer = [] := by
  simp [failed, hanswer.1, hanswer.2]

end Fits

end Round

namespace Lord

variable {θ κ : Type}

/-- The tasks `pids` are Queued and at the end of the run queue. -/
def putBack (pids : List UInt32) (l : Lord θ κ) : Lord θ κ :=
  { l with
    rq := l.rq ++ pids
    aliveTasks := fun tid =>
      if tid ∈ pids then (l.aliveTasks tid).map fun task => { task with state := .queued }
      else l.aliveTasks tid }

/-- The CPUs `cpus` have the records saved for them. -/
def restore (saved : List (Nat × κ)) (cpus : List Nat) (l : Lord θ κ) : Lord θ κ :=
  { l with cpuStates.cell := fun cpu =>
      if cpu ∈ cpus then (saved.lookup cpu).getD (l.cpuStates.cell cpu) else l.cpuStates.cell cpu }

/-- The shots `failed` did not take. -/
def undo (saved : List (Nat × κ)) (failed : List (Nat × UInt32)) (l : Lord θ κ) : Lord θ κ :=
  (l.putBack (failed.map Prod.snd)).restore saved (failed.map Prod.fst)

@[ext] theorem ext {l l' : Lord θ κ} (hlordCpu : l.lordCpu = l'.lordCpu) (hlordPid : l.lordPid = l'.lordPid)
    (hseq : l.seq = l'.seq) (hsa : l.sa = l'.sa) (hrq : l.rq = l'.rq)
    (halive : ∀ tid, l.aliveTasks tid = l'.aliveTasks tid) (hcpus : l.cpuStates = l'.cpuStates) : l = l' := by
  cases l
  cases l'
  simp only [mk.injEq]
  exact ⟨hlordCpu, hlordPid, hseq, hsa, hrq, funext halive, hcpus⟩

theorem putBack_nil (l : Lord θ κ) : l.putBack [] = l := by
  simp [putBack]

theorem restore_nil (saved : List (Nat × κ)) (l : Lord θ κ) : l.restore saved [] = l := by
  simp [restore]

theorem putBack_cons (pid : UInt32) (pids : List UInt32) (l : Lord θ κ) :
    (l.putBack [pid]).putBack pids = l.putBack (pid :: pids) := by
  refine Lord.ext rfl rfl rfl rfl (by simp [putBack]) (fun tid => ?_) rfl
  by_cases hpid : tid = pid <;> by_cases hpids : tid ∈ pids <;>
    simp [putBack, hpid, hpids, Function.comp_def]

theorem restore_cons (saved : List (Nat × κ)) (cpu : Nat) (cpus : List Nat) (l : Lord θ κ) :
    (l.restore saved [cpu]).restore saved cpus = l.restore saved (cpu :: cpus) := by
  refine Lord.ext rfl rfl rfl rfl rfl (fun _ => rfl) (Buffer.ext rfl rfl fun c => ?_)
  by_cases hcpu : c = cpu
  · subst hcpu
    cases hlookup : saved.lookup c <;> simp [restore, hlookup]
  · simp [restore, hcpu]

/-! ### The loops -/

theorem revertTask_eq {l : Lord θ κ} {pid : UInt32} {task : Task θ} (halive : l.aliveTasks pid = some task) :
    l.revertTask pid = .ok (l.putBack [pid]) := by
  have hlookup : (l.enqueue pid).aliveTasks pid = some task := halive
  rw [revertTask, hlookup]
  refine congrArg Except.ok (Lord.ext rfl rfl rfl rfl rfl (fun tid => ?_) rfl)
  by_cases htid : tid = pid
  · subst htid
    simp [setTask, putBack, halive]
  · simp [setTask, enqueue, putBack, htid]

theorem isSome_putBack (pids : List UInt32) (l : Lord θ κ) (tid : UInt32) :
    ((l.putBack pids).aliveTasks tid).isSome = (l.aliveTasks tid).isSome := by
  simp only [putBack]
  split <;> simp

theorem revertTasks_eq {l : Lord θ κ} {pids : List UInt32} (halive : ∀ pid ∈ pids, (l.aliveTasks pid).isSome) :
    l.revertTasks pids = .ok (l.putBack pids) := by
  induction pids generalizing l with
  | nil => rw [revertTasks, putBack_nil]
  | cons pid pids ih =>
    obtain ⟨task, htask⟩ := Option.isSome_iff_exists.mp (halive pid List.mem_cons_self)
    rw [revertTasks, revertTask_eq htask]
    refine (ih fun p hp => ?_).trans (by rw [putBack_cons])
    rw [isSome_putBack]
    exact halive p (List.mem_cons_of_mem _ hp)

theorem revertCpu_eq {l : Lord θ κ} (saved : List (Nat × κ)) {cpu : Nat} (hcpu : cpu < l.cpuStates.capacity) :
    l.revertCpu saved cpu = .ok (l.restore saved [cpu]) := by
  unfold revertCpu
  split
  · rename_i hnone
    refine congrArg Except.ok (Lord.ext rfl rfl rfl rfl rfl (fun _ => rfl) (Buffer.ext rfl rfl fun c => ?_))
    by_cases hc : c = cpu <;> simp [restore, hc, hnone]
  · rename_i old hold
    rw [modifyCpu, Buffer.modify_natCast _ hcpu]
    refine congrArg Except.ok (Lord.ext rfl rfl rfl rfl rfl (fun _ => rfl) (Buffer.ext rfl rfl fun c => ?_))
    by_cases hc : c = cpu <;> simp [restore, Buffer.set_cell, hc, hold]

theorem revertCpus_eq {l : Lord θ κ} {saved : List (Nat × κ)} (hnodup : (saved.map Prod.fst).Nodup)
    (hbound : ∀ entry ∈ saved, entry.1 < l.cpuStates.capacity) :
    l.revertCpus saved = .ok (l.restore saved (saved.map Prod.fst)) := by
  induction saved generalizing l with
  | nil => exact congrArg Except.ok (restore_nil [] l).symm
  | cons entry saved ih =>
    obtain ⟨cpu, old⟩ := entry
    obtain ⟨hnew, hrest⟩ := List.nodup_cons.mp hnodup
    have hcpu : cpu < l.cpuStates.capacity := hbound _ List.mem_cons_self
    rw [revertCpus, modifyCpu, Buffer.modify_natCast _ hcpu]
    refine (ih (l := { l with cpuStates := l.cpuStates.set cpu old }) hrest fun e he =>
      hbound e (List.mem_cons_of_mem _ he)).trans (congrArg Except.ok ?_)
    refine Lord.ext rfl rfl rfl rfl rfl (fun _ => rfl) (Buffer.ext rfl rfl fun c => ?_)
    by_cases hc : c = cpu
    · subst hc
      simp [restore, Buffer.set_cell, hnew]
    · have hkey : (c == cpu) = false := by simpa using hc
      simp only [restore, Buffer.set_cell, hc, if_false, List.map_cons, List.mem_cons, false_or,
        List.lookup_cons, hkey]

theorem revertFailed_eq {l : Lord θ κ} (saved : List (Nat × κ)) {failed : List (Nat × UInt32)}
    (halive : ∀ shot ∈ failed, (l.aliveTasks shot.2).isSome)
    (hbound : ∀ shot ∈ failed, shot.1 < l.cpuStates.capacity) :
    l.revertFailed saved (failed.map fun (cpu, pid) => (cpu, pid.toInt32)) = .ok (l.undo saved failed) := by
  induction failed generalizing l with
  | nil =>
    rw [List.map_nil, revertFailed, undo, List.map_nil, List.map_nil, putBack_nil, restore_nil]
  | cons shot failed ih =>
    obtain ⟨cpu, pid⟩ := shot
    obtain ⟨task, htask⟩ := Option.isSome_iff_exists.mp (halive _ List.mem_cons_self)
    have hcpu : cpu < (l.putBack [pid]).cpuStates.capacity := hbound _ List.mem_cons_self
    rw [List.map_cons, revertFailed, UInt32.toUInt32_toInt32, revertTask_eq htask]
    simp only [revertCpu_eq saved hcpu]
    refine (ih (l := (l.putBack [pid]).restore saved [cpu]) (fun s hs => ?_) fun s hs =>
      hbound s (List.mem_cons_of_mem _ hs)).trans (congrArg Except.ok ?_)
    · exact (isSome_putBack ..).trans (halive s (List.mem_cons_of_mem _ hs))
    · -- putting tasks back and restoring CPUs touch different tables
      calc ((l.putBack [pid]).restore saved [cpu]).undo saved failed
          = (((l.putBack [pid]).putBack (failed.map Prod.snd)).restore saved [cpu]).restore saved
              (failed.map Prod.fst) := rfl
        _ = l.undo saved ((cpu, pid) :: failed) := by
            rw [putBack_cons, restore_cons]
            rfl

/-! ### The shoot -/

variable {cpuNum : Nat} {l : Lord θ κ} {r : Round κ} {answer : ShootAnswer}

/-- The argument of a CPU when `shoot_task` returns. -/
def shotArg (answer : ShootAnswer) (r : Round κ) (l : Lord θ κ) (cpu : Nat) : CosShootArg :=
  let arg := CosShootArea.argFor r.assigned cpu (l.sa.area.cell cpu)
  if cpu ∈ r.assignedMask ∧ cpu ∈ answer.flags then { arg with info := saError } else arg

/-- An assigned CPU has its argument, the others keep theirs, and the kernel has flagged some of the assigned ones. -/
theorem shotArea_eq (answer : ShootAnswer) (hbound : ∀ entry ∈ r.assigned, entry.1 < l.sa.area.capacity) :
    ∃ sa, l.shotArea answer r = some sa ∧ sa.seq = l.seq.toUInt16.toUInt64 ∧
      sa.area.capacity = l.sa.area.capacity ∧ ∀ cpu, sa.area.cell cpu = l.shotArg answer r cpu := by
  rw [shotArea, commit, CosShootArea.commitShootMessage, CosShootArea.writeArgs_eq hbound]
  exact ⟨_, rfl, rfl, rfl, fun _ => rfl⟩

theorem argFor_info (hclear : l.sa.Clear cpuNum) (hfits : r.Fits cpuNum l) {cpu : Nat} (hlt : cpu < cpuNum) :
    (CosShootArea.argFor r.assigned cpu (l.sa.area.cell cpu)).info = saRight := by
  rcases CosShootArea.argFor_mem r.assigned cpu (l.sa.area.cell cpu) with
    hmem | ⟨-, hsame⟩
  · exact hfits.info _ hmem
  · rw [hsame]
    exact hclear.info cpu hlt

/-- The pairs that `check_shoot_state` returns are the failed shots. -/
theorem flagged_eq (hcpu : cpuNum ≤ shootAreaSize) (hclear : l.sa.Clear cpuNum) (hfits : r.Fits cpuNum l)
    (haccepted : answer.err = 0) {sa : CosShootArea} (hcell : ∀ cpu, sa.area.cell cpu = l.shotArg answer r cpu) :
    sa.flagged cpuNum = (r.failed cpuNum answer).map fun (cpu, pid) => (cpu, pid.toInt32) := by
  rw [CosShootArea.flagged]
  simp only [hcell, shotArg]
  rw [Round.failed, if_neg (by simpa using haccepted), List.map_filterMap]
  apply List.filterMap_congr
  intro cpu hmem
  have hlt : cpu < cpuNum := List.mem_range.mp hmem
  have hbit : cpu < cpuSetSize := Nat.lt_of_lt_of_le hlt (Nat.le_trans hcpu (by decide))
  have hinfo := argFor_info hclear hfits hlt
  by_cases hflag : cpu ∈ answer.flags
  · by_cases hassigned : cpu ∈ r.assigned.map Prod.fst
    · obtain ⟨⟨cpu, arg⟩, harg, rfl⟩ := List.mem_map.mp hassigned
      have hlookup : r.pairs.lookup cpu = some arg.pid :=
        (lookup_eq_some_iff_mem hfits.pairs_nodup).mpr (Round.mem_pairs.mpr ⟨arg, harg, rfl⟩)
      have hmask := (hfits.mask cpu hbit).mpr hassigned
      simp [hflag, hmask, hlookup, CosShootArea.argFor_eq hfits.cpus_nodup harg, saError, saRight]
    · have hnone : r.pairs.lookup cpu = none := by
        rw [List.lookup_eq_none_iff]
        rintro ⟨c, pid⟩ hpair
        obtain ⟨arg, harg, -⟩ := Round.mem_pairs.mp hpair
        simpa using fun heq : cpu = c => hassigned (heq ▸ List.mem_map.mpr ⟨_, harg, rfl⟩)
      have hmask : cpu ∉ r.assignedMask := fun h => hassigned ((hfits.mask cpu hbit).mp h)
      simp [hflag, hmask, hnone, hinfo]
  · simp [hflag, hinfo]

theorem undo_nil (saved : List (Nat × κ)) (l : Lord θ κ) : l.undo saved [] = l := by
  rw [undo, List.map_nil, List.map_nil, putBack_nil, restore_nil]

theorem revertAll_eq (hcapacity : l.cpuStates.capacity = cpuNum) (hfits : r.Fits cpuNum l)
    (herr : answer.err ≠ 0) (sa : CosShootArea) :
    ({ l with sa } : Lord θ κ).revertAll r =
      .ok { l.undo r.oldCpuStates (r.failed cpuNum answer) with sa } := by
  have halive : ∀ pid ∈ r.assigned.map (·.2.pid), (({ l with sa } : Lord θ κ).aliveTasks pid).isSome := by
    intro pid hpid
    obtain ⟨⟨cpu, arg⟩, harg, rfl⟩ := List.mem_map.mp hpid
    exact hfits.isSome_aliveTasks (Round.mem_pairs.mpr ⟨arg, harg, rfl⟩)
  have hbound : ∀ entry ∈ r.oldCpuStates, entry.1 < l.cpuStates.capacity := by
    intro entry hentry
    have hcpu : entry.1 ∈ r.assigned.map Prod.fst := hfits.saved ▸ List.mem_map.mpr ⟨_, hentry, rfl⟩
    obtain ⟨arg, harg, heq⟩ := List.mem_map.mp hcpu
    rw [hcapacity, ← heq]
    exact hfits.bound _ harg
  rw [revertAll, revertTasks_eq halive]
  have hnodup : (r.oldCpuStates.map Prod.fst).Nodup := hfits.saved ▸ hfits.cpus_nodup
  refine (revertCpus_eq (l := ({ l with sa } : Lord θ κ).putBack _) hnodup hbound).trans ?_
  rw [Round.failed, if_pos herr, undo, hfits.saved, Round.pairs_map_fst, Round.pairs_map_snd]
  rfl

theorem shotArea_bound {sa : CosShootArea} (hsa : l.shotArea answer r = some sa) :
    ∀ entry ∈ r.assigned, entry.1 < l.sa.area.capacity := by
  cases hwrite : CosShootArea.writeArgs r.assigned l.sa.area with
  | none => simp [shotArea, commit, CosShootArea.commitShootMessage, hwrite] at hsa
  | some area => exact CosShootArea.writeArgs_bound hwrite

/-- A shoot that leaves the area stops there. -/
theorem inArea_or_outOfRange (hclear : l.sa.Clear cpuNum) :
    r.InArea cpuNum answer ∨ l.shoot cpuNum answer r = .error .outOfRange := by
  by_cases hempty : r.assigned = []
  · exact .inl fun hnonempty => absurd hempty hnonempty
  rw [shoot_of_nonempty (by simpa using hempty)]
  cases hsa : l.shotArea answer r with
  | none => exact .inr rfl
  | some sa =>
    have hbound := shotArea_bound hsa
    obtain ⟨sa', hsa', -, hcapacity, -⟩ := shotArea_eq answer hbound
    obtain rfl := Option.some.inj (hsa.symm.trans hsa')
    rw [hclear.capacity] at hbound hcapacity
    dsimp only [afterShoot]
    by_cases haccepted : answer.err = 0
    · rw [if_neg (by simpa using haccepted)]
      cases hcheck : sa.checkShootState cpuNum with
      | none => exact .inr rfl
      | some checked =>
        have hcpu := CosShootArea.checkShootState_bound hcapacity (by rw [hcheck]; rfl)
        exact .inl fun _ => ⟨hbound, fun _ => hcpu⟩
    · exact .inl fun _ => ⟨hbound, fun h => absurd h haccepted⟩

theorem inArea_of_shoot {l' : Lord θ κ} (hclear : l.sa.Clear cpuNum) (hok : l.shoot cpuNum answer r = .ok l') :
    r.InArea cpuNum answer := by
  refine (inArea_or_outOfRange hclear).resolve_right fun herror => ?_
  rw [herror] at hok
  cases hok

/-- **A round that is shot and rolled back** is the assigned round with its failed shots undone, and no flag stays up. -/
theorem shoot_eq (harea : r.InArea cpuNum answer) (hcapacity : l.cpuStates.capacity = cpuNum)
    (hclear : l.sa.Clear cpuNum) (hfits : r.Fits cpuNum l) (hanswer : answer.Clean) :
    ∃ sa, sa.Clear cpuNum ∧
      l.shoot cpuNum answer r = .ok { l.undo r.oldCpuStates (r.failed cpuNum answer) with sa } := by
  by_cases hempty : r.assigned = []
  · refine ⟨l.sa, hclear, ?_⟩
    rw [Round.failed_eq_nil hempty, undo_nil, shoot_of_empty (by simp [hempty])]
  · obtain ⟨hboundArea, hcheckArea⟩ := harea hempty
    rw [← hclear.capacity] at hboundArea
    obtain ⟨sa, hsa, -, hcapacityArea, hcell⟩ := shotArea_eq answer hboundArea
    rw [hclear.capacity] at hcapacityArea
    rw [shoot_of_nonempty (by simpa using hempty), hsa]
    dsimp only [afterShoot]
    by_cases herr : answer.err ≠ 0
    · rw [if_pos herr]
      refine ⟨sa, ⟨hcapacityArea, fun cpu hlt => ?_⟩, revertAll_eq hcapacity hfits herr sa⟩
      simpa [hcell, shotArg, hanswer herr] using argFor_info hclear hfits hlt
    · rw [if_neg herr]
      have haccepted : answer.err = 0 := by simpa using herr
      have hcpu := hcheckArea haccepted
      obtain ⟨sa', hclear', -, hcheck⟩ := CosShootArea.checkShootState_eq (n := cpuNum) hcapacityArea hcpu
      have halive : ∀ shot ∈ r.failed cpuNum answer, (l.aliveTasks shot.2).isSome := fun shot hshot =>
        hfits.isSome_aliveTasks (hfits.mem_failed.mp hshot).1
      have hbound : ∀ shot ∈ r.failed cpuNum answer, shot.1 < l.cpuStates.capacity := fun shot hshot => by
        obtain ⟨arg, harg, -⟩ := Round.mem_pairs.mp (hfits.mem_failed.mp hshot).1
        rw [hcapacity]
        exact hfits.bound _ harg
      refine ⟨sa', hclear', ?_⟩
      rw [hcheck, flagged_eq hcpu hclear hfits haccepted hcell]
      exact revertFailed_eq (l := { l with sa := sa' }) r.oldCpuStates halive hbound

/-- When every shot takes, nothing is undone and the area has the arguments of the round. -/
theorem shoot_success (harea : r.InArea cpuNum answer) (hclear : l.sa.Clear cpuNum) (hfits : r.Fits cpuNum l)
    (hanswer : answer.Success) :
    ∃ sa, l.shoot cpuNum answer r = .ok { l with sa } ∧ ∀ entry ∈ r.assigned, sa.area.cell entry.1 = entry.2 := by
  by_cases hempty : r.assigned = []
  · refine ⟨l.sa, ?_, by simp [hempty]⟩
    rw [shoot_of_empty (by simp [hempty])]
  · obtain ⟨hboundArea, hcheckArea⟩ := harea hempty
    have hcpu := hcheckArea hanswer.1
    rw [← hclear.capacity] at hboundArea
    obtain ⟨sa, hsa, -, hcapacityArea, hcell⟩ := shotArea_eq answer hboundArea
    rw [hclear.capacity] at hcapacityArea
    obtain ⟨sa', hclear', -, hcheck⟩ := CosShootArea.checkShootState_eq (n := cpuNum) hcapacityArea hcpu
    refine ⟨sa', ?_, fun entry hentry => ?_⟩
    · rw [shoot_of_nonempty (by simpa using hempty), hsa]
      dsimp only [afterShoot]
      rw [if_neg (by simp [hanswer.1]), hcheck, flagged_eq hcpu hclear hfits hanswer.1 hcell,
        Round.failed_success hanswer]
      rfl
    · have hpid := CosShootArea.checkShootState_pid hcapacityArea hcpu hcheck entry.1
      have harg : CosShootArea.argFor r.assigned entry.1 (l.sa.area.cell entry.1) = entry.2 :=
        CosShootArea.argFor_eq hfits.cpus_nodup hentry
      rw [hcell, shotArg, if_neg (by simp [hanswer.2]), harg] at hpid
      have hinfo := (hclear'.info entry.1 (hfits.bound entry hentry)).trans (hfits.info entry hentry).symm
      exact congrArg₂ CosShootArg.mk hpid hinfo

/-- A round calls `shoot_task` exactly if it has a shot, with its mask and on an area that holds its arguments. -/
theorem shootCall_eq (harea : r.InArea cpuNum answer) (hclear : l.sa.Clear cpuNum) (hfits : r.Fits cpuNum l) :
    ∃ call, l.shootCall r = .ok call ∧ (call.isSome ↔ r.assigned ≠ []) ∧
      ∀ c ∈ call, c.mask = r.assignedMask ∧ ∀ entry ∈ r.assigned, c.sa.area.cell entry.1 = entry.2 := by
  by_cases hempty : r.assigned = []
  · exact ⟨none, by simp [shootCall, hempty], by simp [hempty], by simp⟩
  · obtain ⟨hboundArea, -⟩ := harea hempty
    rw [← hclear.capacity] at hboundArea
    rw [shootCall, if_neg (by simpa using hempty), commit, CosShootArea.commitShootMessage,
      CosShootArea.writeArgs_eq hboundArea]
    refine ⟨_, rfl, iff_of_true rfl hempty, fun c hc => ?_⟩
    obtain rfl := Option.mem_some_iff.mp hc
    exact ⟨rfl, fun entry hentry => CosShootArea.argFor_eq hfits.cpus_nodup hentry⟩

/-- A shoot stops at the end of the area or not at all. -/
theorem shoot_error (hcapacity : l.cpuStates.capacity = cpuNum) (hclear : l.sa.Clear cpuNum)
    (hfits : r.Fits cpuNum l) (hanswer : answer.Clean) {stop : Stop}
    (herror : l.shoot cpuNum answer r = .error stop) : stop = .outOfRange := by
  rcases inArea_or_outOfRange hclear with harea | hout
  · obtain ⟨sa, -, hok⟩ := shoot_eq harea hcapacity hclear hfits hanswer
    rw [hok] at herror
    cases herror
  · exact Except.error.inj (herror.symm.trans hout)

end Lord

end CosUserspace
