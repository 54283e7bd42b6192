import CosUserspace.Lord.Model

/-!
# What the calls leave alone

The handlers, the shoot and its rollback change a lord in five ways only: they write the run queue, the shoot area, a task that is then not OnCpu, or a CPU record, or they erase a task. A property that these keep is kept by every handler and every shoot, whatever the state of the tables; `assign` besides sets the records of the tasks that it shoots. So neither the members `lord_pid_` and `seq_` of the base class nor the sizes of the containers change.
-/

namespace CosUserspace

/-! ### The shoot area -/

namespace CosShootArea

theorem writeArgs_capacity {args : List (Nat × CosShootArg)} {area area' : Buffer CosShootArg}
    (hsome : writeArgs args area = some area') : area'.capacity = area.capacity := by
  rw [writeArgs_eq (writeArgs_bound hsome), Option.some.injEq] at hsome
  rw [← hsome]

theorem checkShootState_capacity {n : Nat} {sa sa' : CosShootArea} {fail : List (Nat × Int32)}
    (hcheck : sa.checkShootState n = some (fail, sa')) : sa'.area.capacity = sa.area.capacity := by
  have hsome : (checkCpus (List.range n) sa.area).isSome := by
    rw [checkShootState] at hcheck
    rw [← Option.isSome_map, hcheck]
    rfl
  rw [checkShootState, checkCpus_eq List.nodup_range (checkCpus_bound hsome), Option.map_some] at hcheck
  obtain ⟨-, rfl⟩ := Prod.mk.inj (Option.some.inj hcheck)
  rfl

end CosShootArea

namespace Lord

variable {θ κ : Type}

theorem shotArea_capacity {l : Lord θ κ} {answer : ShootAnswer} {r : Round κ} {sa : CosShootArea}
    (hsome : l.shotArea answer r = some sa) : sa.area.capacity = l.sa.area.capacity := by
  unfold shotArea commit CosShootArea.commitShootMessage at hsome
  cases hwrite : CosShootArea.writeArgs r.assigned l.sa.area with
  | none => simp [hwrite] at hsome
  | some area =>
    simp only [hwrite, Option.map_some, Option.some.injEq] at hsome
    rw [← hsome]
    show area.capacity = _
    exact CosShootArea.writeArgs_capacity hwrite

/-! ### The rule -/

/-- What the handlers and the rollback do to a lord keeps `P`. -/
structure Kept (P : Lord θ κ → Prop) : Prop where
  rq : ∀ {l} rq, P l → P { l with rq }
  sa : ∀ {l sa}, sa.area.capacity = l.sa.area.capacity → P l → P { l with sa }
  setTask : ∀ {l tid task}, task.state ≠ .onCpu → P l → P (l.setTask tid task)
  eraseTask : ∀ {l} tid, P l → P (l.eraseTask tid)
  modifyCpu : ∀ {l l' cpu f}, l.modifyCpu cpu f = .ok l' → P l → P l'

namespace Kept

variable {P : Lord θ κ → Prop} {l l' : Lord θ κ}

theorem requeued (hP : Kept P) (h : P l) {tid : UInt32} {task : Task θ} (hstate : task.state ≠ .onCpu) :
    P ((l.enqueue tid).setTask tid task) :=
  hP.setTask hstate (hP.rq _ h)

theorem removeFromRq (hP : Kept P) (h : P l) {tid : UInt32} (hok : l.removeFromRq tid = .ok l') : P l' := by
  unfold Lord.removeFromRq at hok
  split at hok
  · cases hok
  · obtain rfl := Except.ok.inj hok
    exact hP.rq _ h

theorem revertTask (hP : Kept P) (h : P l) {pid : UInt32} (hok : l.revertTask pid = .ok l') : P l' := by
  unfold Lord.revertTask at hok
  split at hok
  · cases hok
  · obtain rfl := Except.ok.inj hok
    exact hP.requeued h (by simp)

theorem revertTasks (hP : Kept P) (h : P l) {pids : List UInt32} (hok : l.revertTasks pids = .ok l') : P l' := by
  induction pids generalizing l with
  | nil =>
    obtain rfl := Except.ok.inj hok
    exact h
  | cons pid pids ih =>
    rw [Lord.revertTasks] at hok
    split at hok
    · cases hok
    · rename_i hfirst
      exact ih (hP.revertTask h hfirst) hok

theorem revertCpus (hP : Kept P) (h : P l) {saved : List (Nat × κ)} (hok : l.revertCpus saved = .ok l') : P l' := by
  induction saved generalizing l with
  | nil =>
    obtain rfl := Except.ok.inj hok
    exact h
  | cons entry saved ih =>
    rw [Lord.revertCpus] at hok
    split at hok
    · cases hok
    · rename_i hfirst
      exact ih (hP.modifyCpu hfirst h) hok

theorem revertAll (hP : Kept P) (h : P l) {r : Round κ} (hok : l.revertAll r = .ok l') : P l' := by
  unfold Lord.revertAll at hok
  split at hok
  · cases hok
  · rename_i hfirst
    exact hP.revertCpus (hP.revertTasks h hfirst) hok

theorem revertCpu (hP : Kept P) (h : P l) {saved : List (Nat × κ)} {cpu : Nat} (hok : l.revertCpu saved cpu = .ok l') :
    P l' := by
  unfold Lord.revertCpu at hok
  split at hok
  · obtain rfl := Except.ok.inj hok
    exact h
  · exact hP.modifyCpu hok h

theorem revertFailed (hP : Kept P) (h : P l) {saved : List (Nat × κ)} {fail : List (Nat × Int32)}
    (hok : l.revertFailed saved fail = .ok l') : P l' := by
  induction fail generalizing l with
  | nil =>
    obtain rfl := Except.ok.inj hok
    exact h
  | cons shot fail ih =>
    rw [Lord.revertFailed] at hok
    split at hok
    · cases hok
    · rename_i htask
      split at hok
      · cases hok
      · rename_i hcpu
        exact ih (hP.revertCpu (hP.revertTask h htask) hcpu) hok

/-- The shoot and its rollback. -/
theorem shoot (hP : Kept P) (h : P l) {cpuNum : Nat} {answer : ShootAnswer} {r : Round κ}
    (hok : l.shoot cpuNum answer r = .ok l') : P l' := by
  by_cases hempty : r.assigned.isEmpty = true
  · rw [shoot_of_empty hempty] at hok
    obtain rfl := Except.ok.inj hok
    exact h
  rw [shoot_of_nonempty hempty] at hok
  split at hok
  · cases hok
  rename_i sa harea
  have hcapacity := shotArea_capacity harea
  rw [afterShoot] at hok
  split at hok
  · exact hP.revertAll (hP.sa hcapacity h) hok
  split at hok
  · cases hok
  · rename_i fail sa' hcheck
    exact hP.revertFailed (hP.sa ((CosShootArea.checkShootState_capacity hcheck).trans hcapacity) h) hok

variable {m : CosMsg}

theorem consumeMsgTaskRunnable (hP : Kept P) (h : P l) (hok : l.consumeMsgTaskRunnable m = .ok l') : P l' := by
  unfold Lord.consumeMsgTaskRunnable at hok
  dsimp only at hok
  split at hok
  · exact Except.ok.inj hok ▸ h
  · split at hok
    · exact Except.ok.inj hok ▸ h
    · exact Except.ok.inj hok ▸ hP.requeued h (by simp)

theorem consumeMsgTaskNew [Inhabited θ] (hP : Kept P) (h : P l) (hok : l.consumeMsgTaskNew m = .ok l') : P l' := by
  unfold Lord.consumeMsgTaskNew at hok
  dsimp only at hok
  split at hok
  · cases hok
  · exact Except.ok.inj hok ▸ hP.requeued h (by simp)

theorem consumeMsgTaskNewBlocked [Inhabited θ] (hP : Kept P) (h : P l) (hok : l.consumeMsgTaskNewBlocked m = .ok l') :
    P l' := by
  unfold Lord.consumeMsgTaskNewBlocked at hok
  dsimp only at hok
  split at hok
  · cases hok
  · exact Except.ok.inj hok ▸ hP.setTask (by simp [Task.new]) h

variable [CpuRecord κ]

theorem leave (hP : Kept P) (h : P l) {tid : UInt32} {task : Task θ} (hok : l.leave tid task = .ok l') : P l' := by
  unfold Lord.leave at hok
  split at hok
  · exact hP.removeFromRq h hok
  · exact hP.modifyCpu hok h
  · obtain rfl := Except.ok.inj hok
    exact h

theorem consumeMsgTaskBlocked (hP : Kept P) (h : P l) (hok : l.consumeMsgTaskBlocked m = .ok l') : P l' := by
  unfold Lord.consumeMsgTaskBlocked at hok
  dsimp only at hok
  split at hok
  · exact Except.ok.inj hok ▸ h
  · split at hok
    · cases hok
    · rename_i hleave
      exact Except.ok.inj hok ▸ hP.setTask (by simp) (hP.leave h hleave)

theorem consumeMsgTaskDead (hP : Kept P) (h : P l) (hok : l.consumeMsgTaskDead m = .ok l') : P l' := by
  unfold Lord.consumeMsgTaskDead at hok
  dsimp only at hok
  split at hok
  · cases hok
  · split at hok
    · cases hok
    · rename_i hleave
      exact Except.ok.inj hok ▸ hP.eraseTask _ (hP.leave h hleave)

theorem consumeMsgTaskPreemptCos (hP : Kept P) (h : P l) (hok : l.consumeMsgTaskPreemptCos m = .ok l') : P l' := by
  unfold Lord.consumeMsgTaskPreemptCos at hok
  dsimp only at hok
  split at hok
  · cases hok
  · split at hok
    · cases hok
    · exact Except.ok.inj hok ▸ h
    · split at hok
      · cases hok
      · split at hok
        · exact Except.ok.inj hok ▸ hP.requeued h (by simp)
        · cases hok

theorem consumeMsgTaskPreempt (hP : Kept P) (h : P l) (hok : l.consumeMsgTaskPreempt m = .ok l') : P l' := by
  unfold Lord.consumeMsgTaskPreempt at hok
  dsimp only at hok
  split at hok
  · cases hok
  · split at hok
    · cases hok
    · exact Except.ok.inj hok ▸ h
    · exact hP.modifyCpu hok (hP.requeued h (by simp))

theorem handle [Inhabited θ] (hP : Kept P) (h : P l) (hok : l.handle m = .ok l') : P l' := by
  unfold Lord.handle at hok
  split at hok
  · exact hP.consumeMsgTaskRunnable h hok
  · exact hP.consumeMsgTaskBlocked h hok
  · exact hP.consumeMsgTaskNew h hok
  · exact hP.consumeMsgTaskDead h hok
  · exact hP.consumeMsgTaskPreempt h hok
  · exact hP.consumeMsgTaskNewBlocked h hok
  · exact hP.consumeMsgTaskPreemptCos h hok
  · exact Except.ok.inj hok ▸ h

end Kept

/-- `assign` besides sets the records of the tasks that it shoots onto CPUs below `cpuNum`. -/
structure KeptByShots (cpuNum : Nat) (P : Lord θ κ → Prop) : Prop extends Kept P where
  shootOn : ∀ {l tid} {task : Task θ} {now cpu}, cpu < cpuNum → P l → P (l.setTask tid (task.shootOn now cpu))

/-- A write to a CPU record changes the records and nothing else. -/
theorem modifyCpu_ok {l l' : Lord θ κ} {cpu : Int} {f : κ → κ} (hok : l.modifyCpu cpu f = .ok l') :
    l' = { l with cpuStates := l.cpuStates.set cpu.toNat (f (l.cpuStates.cell cpu.toNat)) } := by
  unfold modifyCpu Buffer.modify at hok
  by_cases hcpu : l.cpuStates.InBounds cpu
  · rw [if_pos hcpu] at hok
    exact (Except.ok.inj hok).symm
  · rw [if_neg hcpu] at hok
    cases hok

/-! ### The base class -/

/-- The handlers and `schedule` write neither `lord_pid_` nor `seq_`. -/
structure SameBase (l l' : Lord θ κ) : Prop where
  lordPid_eq : l'.lordPid = l.lordPid
  seq_eq : l'.seq = l.seq

namespace SameBase

variable {l l₁ l₂ l' : Lord θ κ}

theorem refl (l : Lord θ κ) : SameBase l l := ⟨rfl, rfl⟩

theorem trans (h₁ : SameBase l l₁) (h₂ : SameBase l₁ l₂) : SameBase l l₂ :=
  ⟨h₂.lordPid_eq.trans h₁.lordPid_eq, h₂.seq_eq.trans h₁.seq_eq⟩

theorem setTask (tid : UInt32) (task : Task θ) (l : Lord θ κ) : SameBase l (l.setTask tid task) := ⟨rfl, rfl⟩

theorem modifyCpu {cpu : Int} {f : κ → κ} (hok : l.modifyCpu cpu f = .ok l') : SameBase l l' := by
  rw [modifyCpu_ok hok]
  exact ⟨rfl, rfl⟩

theorem kept (l : Lord θ κ) : Kept (SameBase l) where
  rq _ h := h.trans ⟨rfl, rfl⟩
  sa _ h := h.trans ⟨rfl, rfl⟩
  setTask _ h := h.trans (.setTask ..)
  eraseTask _ h := h.trans ⟨rfl, rfl⟩
  modifyCpu hok h := h.trans (.modifyCpu hok)

theorem keptByShots (cpuNum : Nat) (l : Lord θ κ) : KeptByShots cpuNum (SameBase l) where
  toKept := kept l
  shootOn _ h := h.trans (.setTask ..)

theorem shoot {cpuNum : Nat} {answer : ShootAnswer} {r : Round κ} (hok : l.shoot cpuNum answer r = .ok l') :
    SameBase l l' :=
  (kept l).shoot (.refl l) hok

theorem handle [Inhabited θ] [CpuRecord κ] {m : CosMsg} (hok : l.handle m = .ok l') : SameBase l l' :=
  (kept l).handle (.refl l) hok

end SameBase

/-! ### The containers -/

/-- The containers are those of `l`: no call resizes `cpu_states_` or maps another area. -/
structure SameContainers (l l' : Lord θ κ) : Prop where
  size_eq : l'.cpuStates.size = l.cpuStates.size
  capacity_eq : l'.cpuStates.capacity = l.cpuStates.capacity
  area_eq : l'.sa.area.capacity = l.sa.area.capacity

namespace SameContainers

variable {l l₁ l₂ l' : Lord θ κ}

theorem refl (l : Lord θ κ) : SameContainers l l := ⟨rfl, rfl, rfl⟩

theorem trans (h₁ : SameContainers l l₁) (h₂ : SameContainers l₁ l₂) : SameContainers l l₂ :=
  ⟨h₂.size_eq.trans h₁.size_eq, h₂.capacity_eq.trans h₁.capacity_eq, h₂.area_eq.trans h₁.area_eq⟩

theorem modifyCpu {cpu : Int} {f : κ → κ} (hok : l.modifyCpu cpu f = .ok l') : SameContainers l l' := by
  rw [modifyCpu_ok hok]
  exact ⟨rfl, rfl, rfl⟩

theorem kept (l : Lord θ κ) : Kept (SameContainers l) where
  rq _ h := h.trans ⟨rfl, rfl, rfl⟩
  sa hcapacity h := h.trans ⟨rfl, rfl, hcapacity⟩
  setTask _ h := h.trans ⟨rfl, rfl, rfl⟩
  eraseTask _ h := h.trans ⟨rfl, rfl, rfl⟩
  modifyCpu hok h := h.trans (.modifyCpu hok)

theorem keptByShots (cpuNum : Nat) (l : Lord θ κ) : KeptByShots cpuNum (SameContainers l) where
  toKept := kept l
  shootOn _ h := h.trans ⟨rfl, rfl, rfl⟩

end SameContainers

end Lord

/-! ### Rounds -/

/-- The CPUs of the round are below `cpuNum`. -/
structure Round.Ranged {κ : Type} (cpuNum : Nat) (r : Round κ) : Prop where
  assigned : ∀ entry ∈ r.assigned, entry.1 < cpuNum
  saved : ∀ entry ∈ r.oldCpuStates, entry.1 < cpuNum

namespace Round.Ranged

variable {κ : Type} {cpuNum : Nat} {r : Round κ}

theorem empty : (Round.empty : Round κ).Ranged cpuNum := ⟨by simp [Round.empty], by simp [Round.empty]⟩

theorem push (h : r.Ranged cpuNum) {cpu : Nat} (hcpu : cpu < cpuNum) (pid : UInt32) (old : κ) :
    (r.push cpu pid old).Ranged cpuNum where
  assigned entry hmem := by
    rcases List.mem_append.mp hmem with hbefore | hnew
    · exact h.assigned entry hbefore
    · rw [List.mem_singleton.mp hnew]
      exact hcpu
  saved entry hmem := by
    rcases List.mem_append.mp hmem with hbefore | hnew
    · exact h.saved entry hbefore
    · rw [List.mem_singleton.mp hnew]
      exact hcpu

end Round.Ranged

/-- The `assign` of the scheduler changes the lord by such shots and in those five ways only. -/
def Scheduler.AssignsByShots {θ κ ι : Type} (S : Scheduler θ κ ι) : Prop :=
  ∀ P : Lord θ κ → Prop, Lord.KeptByShots S.cpuNum P → ∀ input l l' r, P l → S.assign input l = .ok (l', r) →
    P l' ∧ r.Ranged S.cpuNum

end CosUserspace
