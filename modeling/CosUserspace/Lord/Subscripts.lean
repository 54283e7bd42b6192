import CosUserspace.Lord.Frame

/-!
# The subscripts of a lord

The lords access `cpu_states_[i]` and `sa_->area[i]` without a check. Here their calls are followed once more for the subscripts they use, in order, consecutive uses of one subscript named once. The model stops at the first subscript that has no allocated cell, so a call stops for that reason exactly when one of its subscripts has none (`Checks`).
-/

namespace CosUserspace

/-- An access `cpu_states_[i]` or `sa_->area[i]`. -/
inductive Access
  | cpuStates (i : Int)
  | area (i : Int)
  deriving DecidableEq, Repr

/-- An access `cpu_states_[cpu]` where `cpu` counts CPUs. -/
def Access.ofCpu (cpu : Nat) : Access := .cpuStates cpu

/-- The subscript is below the bound of its container. -/
def Access.Below (cpus area : Nat) : Access → Prop
  | .cpuStates i => 0 ≤ i ∧ i < cpus
  | .area i => 0 ≤ i ∧ i < area

theorem Access.Below.mono {cpus area cpus' area' : Nat} {a : Access} (ha : a.Below cpus area) (hcpus : cpus ≤ cpus')
    (harea : area ≤ area') : a.Below cpus' area' := by
  cases a with
  | cpuStates i | area i =>
    obtain ⟨hpos, hlt⟩ := ha
    exact ⟨hpos, by omega⟩

instance (cpus area : Nat) (a : Access) : Decidable (a.Below cpus area) :=
  match a with
  | .cpuStates _ | .area _ => inferInstanceAs (Decidable (_ ∧ _))

namespace Lord

variable {θ κ : Type}

/-- The subscript is below `cpu_states_.size()` or `_SHOOT_AREA_SIZE`. -/
def Inside (l : Lord θ κ) (a : Access) : Prop := a.Below l.cpuStates.size shootAreaSize

instance (l : Lord θ κ) (a : Access) : Decidable (l.Inside a) := inferInstanceAs (Decidable (a.Below _ _))

/-- The subscript has an allocated cell. -/
def Allocated (l : Lord θ κ) (a : Access) : Prop := a.Below l.cpuStates.capacity l.sa.area.capacity

theorem SameContainers.allocated_iff {l l' : Lord θ κ} (hsame : SameContainers l l') {a : Access} :
    l'.Allocated a ↔ l.Allocated a := by
  unfold Allocated
  rw [hsame.capacity_eq, hsame.area_eq]

theorem read_of_allocated {l : Lord θ κ} {i : Int} (hi : l.Allocated (.cpuStates i)) :
    l.cpuStates.read i = some (l.cpuStates.cell i.toNat) :=
  Buffer.read_eq_some.mpr ⟨hi, rfl⟩

theorem modifyCpu_of_allocated {l : Lord θ κ} {i : Int} (hi : l.Allocated (.cpuStates i)) (f : κ → κ) :
    ∃ l', l.modifyCpu i f = .ok l' ∧ SameContainers l l' := by
  have hmodify : l.cpuStates.modify i f = some _ := if_pos hi
  have hok : l.modifyCpu i f = .ok { l with cpuStates := l.cpuStates.set i.toNat (f (l.cpuStates.cell i.toNat)) } := by
    rw [modifyCpu, hmodify]
  exact ⟨_, hok, .modifyCpu hok⟩

theorem modifyCpu_of_not_allocated {l : Lord θ κ} {i : Int} (hi : ¬ l.Allocated (.cpuStates i)) (f : κ → κ) :
    l.modifyCpu i f = .error .outOfRange := by
  have hmodify : l.cpuStates.modify i f = none := if_neg hi
  rw [modifyCpu, hmodify]

theorem read_of_not_allocated {l : Lord θ κ} {i : Int} (hi : ¬ l.Allocated (.cpuStates i)) :
    l.cpuStates.read i = none :=
  if_neg hi

/-! ### Accesses -/

/-- The loop of the constructor. -/
def newAccesses (cpuNum : Nat) : List Access := (List.range cpuNum).map .ofCpu

/-- A handler that finds its task OnCpu uses `task->cpu_id`, and no other subscript. -/
def taskAccesses (task : Task θ) : List Access := if task.state = .onCpu then [.cpuStates task.cpuId] else []

def handleAccesses (msg : CosMsg) (l : Lord θ κ) : List Access :=
  match MsgType.ofCode msg.type, l.aliveTasks msg.pid.toUInt32 with
  | some .blocked, some task | some .dead, some task | some .preempt, some task | some .cosPreempt, some task =>
    taskAccesses task
  | _, _ => []

/-- `for (auto cs : old_cpu_states)` after a `shoot_err`. -/
def revertAllAccesses (r : Round κ) (l : Lord θ κ) : List Access :=
  match l.revertTasks (r.assigned.map (·.2.pid)) with
  | .error _ => []
  | .ok _ => r.oldCpuStates.map fun entry => .cpuStates entry.1

/-- `for (auto f : fail)` -/
def revertFailedAccesses (saved : List (Nat × κ)) : List (Nat × Int32) → Lord θ κ → List Access
  | [], _ => []
  | (cpu, pid) :: fail, l =>
    match l.revertTask pid.toUInt32 with
    | .error _ => []
    | .ok l =>
      (if (saved.lookup cpu).isSome then [.cpuStates cpu] else []) ++
        match l.revertCpu saved cpu with
        | .error _ => []
        | .ok l => revertFailedAccesses saved fail l

/-- The loop of `commit_shoot_message`. -/
def commitAccesses (r : Round κ) : List Access := r.assigned.map fun entry => .area entry.1

/-- The loop of `check_shoot_state`. -/
def checkAccesses (cpuNum : Nat) : List Access := (List.range cpuNum).map fun (i : Nat) => .area i

/-- `schedule` from `if (assigned.empty())` on. -/
def shootAccesses (cpuNum : Nat) (answer : ShootAnswer) (r : Round κ) (l : Lord θ κ) : List Access :=
  if r.assigned.isEmpty then []
  else
    commitAccesses r ++
      match l.shotArea answer r with
      | none => []
      | some sa =>
        if answer.err ≠ 0 then ({ l with sa } : Lord θ κ).revertAllAccesses r
        else
          checkAccesses cpuNum ++
            match sa.checkShootState cpuNum with
            | none => []
            | some (fail, sa) => ({ l with sa } : Lord θ κ).revertFailedAccesses r.oldCpuStates fail

/-! ### Checks -/

/-- `x` stops at an access without a cell if and only if one of `accesses` has none. -/
def Checks {α : Type} (l : Lord θ κ) (x : Except Stop α) (accesses : List Access) : Prop :=
  x = .error .outOfRange ↔ ∃ a ∈ accesses, ¬ l.Allocated a

namespace Checks

variable {α β : Type} {l l' : Lord θ κ} {x : Except Stop α} {y : Except Stop β} {a : Access} {accesses more : List Access}

theorem nothing (hx : x ≠ .error .outOfRange) : Checks l x [] := by
  simp [Checks, hx]

/-- A call that passes another one's stop on. -/
theorem passed_on {stop : Stop} (hy : y ≠ .error .outOfRange) (hstop : y = .error stop) :
    Checks l (.error stop : Except Stop α) [] := by
  apply nothing
  intro herror
  obtain rfl : stop = .outOfRange := Except.error.inj herror
  exact hy hstop

theorem ok (v : α) : Checks l (.ok v) [] := nothing (by simp)

theorem stop (ha : ¬ l.Allocated a) : Checks l (.error .outOfRange : Except Stop α) (a :: accesses) := by
  simp [Checks, ha]

theorem cons (ha : l.Allocated a) (h : Checks l x accesses) : Checks l x (a :: accesses) := by
  unfold Checks at h ⊢
  simpa [ha] using h

theorem append (hall : ∀ a ∈ accesses, l.Allocated a) (h : Checks l x more) : Checks l x (accesses ++ more) := by
  induction accesses with
  | nil => exact h
  | cons a accesses ih =>
    obtain ⟨ha, hall⟩ := List.forall_mem_cons.mp hall
    exact .cons ha (ih hall)

theorem append_stop {stop : Stop} (h : Checks l (.error stop : Except Stop α) accesses) :
    Checks l (.error stop : Except Stop β) (accesses ++ []) := by
  unfold Checks at h ⊢
  rw [List.append_nil, ← h, Except.error.injEq, Except.error.injEq]

/-- The rest of a call checks against the same containers. -/
theorem of_same (hsame : SameContainers l l') (h : Checks l' x accesses) : Checks l x accesses := by
  unfold Checks at h ⊢
  simpa only [hsame.allocated_iff] using h

theorem all_allocated (h : Checks l x accesses) (hx : x ≠ .error .outOfRange) : ∀ a ∈ accesses, l.Allocated a := by
  intro a ha
  by_contra hnot
  exact hx (h.mpr ⟨a, ha, hnot⟩)

theorem map (h : Checks l x accesses) (f : α → β) : Checks l (x.map f) accesses := by
  unfold Checks at h ⊢
  rw [← h]
  cases x <;> simp [Except.map]

theorem modifyCpu (l : Lord θ κ) (cpu : Int) (f : κ → κ) : Checks l (l.modifyCpu cpu f) [.cpuStates cpu] := by
  by_cases hcpu : l.Allocated (.cpuStates cpu)
  · obtain ⟨l', hok, -⟩ := modifyCpu_of_allocated hcpu f
    rw [hok]
    exact .cons hcpu (.ok l')
  · rw [modifyCpu_of_not_allocated hcpu]
    exact .stop hcpu

end Checks

section Handlers

variable [CpuRecord κ] {l : Lord θ κ} {m : CosMsg}

theorem leave_checks (tid : UInt32) (task : Task θ) (l : Lord θ κ) :
    Checks l (l.leave tid task) (taskAccesses task) := by
  unfold leave taskAccesses
  cases task.state with
  | queued =>
    apply Checks.nothing
    show l.removeFromRq tid ≠ _
    unfold removeFromRq
    split <;> simp
  | onCpu => exact .modifyCpu ..
  | blocked => exact .ok l

theorem blocked_checks {task : Task θ} (halive : l.aliveTasks m.pid.toUInt32 = some task) :
    Checks l (l.consumeMsgTaskBlocked m) (taskAccesses task) := by
  have hmap : l.consumeMsgTaskBlocked m =
      (l.leave m.pid.toUInt32 task).map (·.setTask m.pid.toUInt32 { task with state := .blocked }) := by
    simp only [consumeMsgTaskBlocked, halive]
    cases l.leave m.pid.toUInt32 task <;> rfl
  rw [hmap]
  exact (leave_checks ..).map _

theorem dead_checks {task : Task θ} (halive : l.aliveTasks m.pid.toUInt32 = some task) :
    Checks l (l.consumeMsgTaskDead m) (taskAccesses task) := by
  have hmap : l.consumeMsgTaskDead m = (l.leave m.pid.toUInt32 task).map (·.eraseTask m.pid.toUInt32) := by
    simp only [consumeMsgTaskDead, halive]
    cases l.leave m.pid.toUInt32 task <;> rfl
  rw [hmap]
  exact (leave_checks ..).map _

theorem preempt_checks {task : Task θ} (halive : l.aliveTasks m.pid.toUInt32 = some task) :
    Checks l (l.consumeMsgTaskPreempt m) (taskAccesses task) := by
  unfold consumeMsgTaskPreempt taskAccesses
  simp only [halive]
  cases hstate : task.state with
  | queued => exact .ok l
  | blocked => exact .nothing (by simp)
  | onCpu => exact .of_same ⟨rfl, rfl, rfl⟩ (Checks.modifyCpu _ _ _)

theorem preemptCos_checks {task : Task θ} (halive : l.aliveTasks m.pid.toUInt32 = some task) :
    Checks l (l.consumeMsgTaskPreemptCos m) (taskAccesses task) := by
  unfold consumeMsgTaskPreemptCos taskAccesses
  simp only [halive]
  cases hstate : task.state with
  | queued => exact .ok l
  | blocked => exact .nothing (by simp)
  | onCpu =>
    have hcells : ∀ queued, ((l.enqueue m.pid.toUInt32).setTask m.pid.toUInt32 queued).cpuStates = l.cpuStates :=
      fun _ => rfl
    simp only [hcells]
    by_cases hcpu : l.Allocated (.cpuStates task.cpuId)
    · rw [read_of_allocated hcpu]
      apply Checks.cons hcpu
      apply Checks.nothing
      dsimp only
      split <;> simp
    · rw [read_of_not_allocated hcpu]
      exact .stop hcpu

/-- **A handler stops for a subscript exactly when the one it uses has no cell.** -/
theorem handle_checks [Inhabited θ] (m : CosMsg) (l : Lord θ κ) : Checks l (l.handle m) (l.handleAccesses m) := by
  unfold handle handleAccesses
  cases halive : l.aliveTasks m.pid.toUInt32 with
  | none =>
    cases MsgType.ofCode m.type with
    | none => exact .ok l
    | some kind =>
      cases kind <;> exact Checks.nothing (by simp [consumeMsgTaskRunnable, consumeMsgTaskBlocked, consumeMsgTaskNew,
        consumeMsgTaskDead, consumeMsgTaskPreempt, consumeMsgTaskNewBlocked, consumeMsgTaskPreemptCos, halive])
  | some task =>
    cases MsgType.ofCode m.type with
    | none => exact .ok l
    | some kind =>
      cases kind with
      | blocked => exact blocked_checks halive
      | dead => exact dead_checks halive
      | preempt => exact preempt_checks halive
      | cosPreempt => exact preemptCos_checks halive
      | new => exact .nothing (by simp [consumeMsgTaskNew, halive])
      | newBlocked => exact .nothing (by simp [consumeMsgTaskNewBlocked, halive])
      | runnable =>
        apply Checks.nothing
        simp only [consumeMsgTaskRunnable, halive]
        split <;> simp

end Handlers

/-! ### The shoot -/

section Shoot

variable {l : Lord θ κ}

theorem revertTask_ne {pid : UInt32} : l.revertTask pid ≠ .error .outOfRange := by
  unfold revertTask
  split <;> simp

theorem revertTasks_ne {pids : List UInt32} : l.revertTasks pids ≠ .error .outOfRange := by
  induction pids generalizing l with
  | nil => simp [revertTasks]
  | cons pid pids ih =>
    rw [revertTasks]
    cases hfirst : l.revertTask pid with
    | error stop =>
      intro heq
      exact revertTask_ne (hfirst.trans heq)
    | ok l => exact ih

theorem revertCpus_checks (saved : List (Nat × κ)) (l : Lord θ κ) :
    Checks l (l.revertCpus saved) (saved.map fun entry => .cpuStates entry.1) := by
  induction saved generalizing l with
  | nil => exact .ok l
  | cons entry saved ih =>
    obtain ⟨cpu, old⟩ := entry
    rw [revertCpus, List.map_cons]
    by_cases hcpu : l.Allocated (.cpuStates cpu)
    · obtain ⟨l', hok, hsame⟩ := modifyCpu_of_allocated hcpu fun _ => old
      rw [hok]
      exact .cons hcpu (.of_same hsame (ih l'))
    · rw [modifyCpu_of_not_allocated hcpu]
      exact .stop hcpu

theorem revertAll_checks (r : Round κ) (l : Lord θ κ) : Checks l (l.revertAll r) (l.revertAllAccesses r) := by
  unfold revertAll revertAllAccesses
  cases hfirst : l.revertTasks (r.assigned.map (·.2.pid)) with
  | error stop => exact .passed_on revertTasks_ne hfirst
  | ok l' =>
    apply Checks.of_same ((SameContainers.kept l).revertTasks (.refl l) hfirst)
    exact revertCpus_checks ..

/-- The CPU of a failed shot is looked up among the saved ones, and its record written if it is there. -/
theorem revertFailed_checks (saved : List (Nat × κ)) (fail : List (Nat × Int32)) (l : Lord θ κ) :
    Checks l (l.revertFailed saved fail) (l.revertFailedAccesses saved fail) := by
  induction fail generalizing l with
  | nil => exact .ok l
  | cons shot fail ih =>
    obtain ⟨cpu, pid⟩ := shot
    rw [revertFailed, revertFailedAccesses]
    cases htask : l.revertTask pid.toUInt32 with
    | error stop => exact .passed_on revertTask_ne htask
    | ok l' =>
      apply Checks.of_same ((SameContainers.kept l).revertTask (.refl l) htask)
      dsimp only
      cases hlookup : saved.lookup cpu with
      | none =>
        simp only [revertCpu, hlookup]
        exact ih l'
      | some old =>
        simp only [revertCpu, hlookup]
        by_cases hcpu : l'.Allocated (.cpuStates cpu)
        · obtain ⟨l'', hok, hsame⟩ := modifyCpu_of_allocated hcpu fun _ => old
          rw [hok]
          exact .cons hcpu (.of_same hsame (ih l''))
        · rw [modifyCpu_of_not_allocated hcpu]
          exact .stop hcpu

theorem allocated_area {i : Nat} : l.Allocated (.area i) ↔ i < l.sa.area.capacity :=
  l.sa.area.inBounds_natCast i

theorem commit_isSome_iff (r : Round κ) (l : Lord θ κ) :
    (l.commit r).isSome ↔ ∀ a ∈ commitAccesses r, l.Allocated a := by
  have hbound : (∀ a ∈ commitAccesses r, l.Allocated a) ↔ ∀ entry ∈ r.assigned, entry.1 < l.sa.area.capacity := by
    simp only [commitAccesses, List.forall_mem_map, allocated_area]
  rw [hbound, commit, CosShootArea.commitShootMessage, Option.isSome_map]
  constructor
  · intro hsome
    obtain ⟨area, harea⟩ := Option.isSome_iff_exists.mp hsome
    exact CosShootArea.writeArgs_bound harea
  · intro hall
    rw [CosShootArea.writeArgs_eq hall]
    rfl

theorem check_isSome_iff (cpuNum : Nat) (l : Lord θ κ) :
    (l.sa.checkShootState cpuNum).isSome ↔ ∀ a ∈ checkAccesses cpuNum, l.Allocated a := by
  have hbound : (∀ a ∈ checkAccesses cpuNum, l.Allocated a) ↔ ∀ cpu ∈ List.range cpuNum, cpu < l.sa.area.capacity := by
    simp only [checkAccesses, List.forall_mem_map, allocated_area]
  rw [hbound, CosShootArea.checkShootState, Option.isSome_map]
  constructor
  · exact CosShootArea.checkCpus_bound
  · intro hall
    rw [CosShootArea.checkCpus_eq List.nodup_range hall]
    rfl

theorem Checks.stop_among {α : Type} {accesses more : List Access} (hnot : ¬ ∀ a ∈ accesses, l.Allocated a) :
    Checks l (.error .outOfRange : Except Stop α) (accesses ++ more) := by
  obtain ⟨a, hnot⟩ := not_forall.mp hnot
  obtain ⟨ha, hnot⟩ := Classical.not_imp.mp hnot
  exact iff_of_true rfl ⟨a, List.mem_append_left _ ha, hnot⟩

/-- **`schedule` stops in the shoot or its rollback for a subscript exactly when one that they use has no cell.** -/
theorem shoot_checks (cpuNum : Nat) (answer : ShootAnswer) (r : Round κ) (l : Lord θ κ) :
    Checks l (l.shoot cpuNum answer r) (l.shootAccesses cpuNum answer r) := by
  unfold shootAccesses
  by_cases hempty : r.assigned.isEmpty = true
  · rw [shoot_of_empty hempty, if_pos hempty]
    exact .ok l
  rw [shoot_of_nonempty hempty, if_neg hempty]
  have hcommit : (l.shotArea answer r).isSome ↔ ∀ a ∈ commitAccesses r, l.Allocated a := by
    rw [shotArea, Option.isSome_map]
    exact commit_isSome_iff r l
  cases harea : l.shotArea answer r with
  | none =>
    apply Checks.stop_among
    rw [← hcommit, harea]
    simp
  | some sa =>
    have hsame : SameContainers l { l with sa } := ⟨rfl, rfl, shotArea_capacity harea⟩
    apply Checks.append (hcommit.mp (by simp [harea]))
    apply Checks.of_same hsame
    dsimp only [afterShoot]
    split
    · exact revertAll_checks ..
    have hcheck := check_isSome_iff cpuNum { l with sa }
    cases hfail : sa.checkShootState cpuNum with
    | none =>
      apply Checks.stop_among
      rw [← hcheck, hfail]
      simp
    | some checked =>
      obtain ⟨fail, sa'⟩ := checked
      apply Checks.append (hcheck.mp (by simp [hfail]))
      have hchecked : SameContainers { l with sa } { l with sa := sa' } :=
        ⟨rfl, rfl, CosShootArea.checkShootState_capacity hfail⟩
      apply Checks.of_same hchecked
      exact revertFailed_checks ..

/-- With fewer cells than CPUs the check of a round that the kernel takes runs past the area. -/
theorem shoot_outOfRange {cpuNum : Nat} {answer : ShootAnswer} {r : Round κ} (hcpu : l.sa.area.capacity < cpuNum)
    (hround : r.assigned.isEmpty = false) (herr : answer.err = 0) :
    l.shoot cpuNum answer r = .error .outOfRange := by
  rw [shoot_of_nonempty (by simp [hround])]
  cases harea : l.shotArea answer r with
  | none => rfl
  | some sa =>
    have hnone : sa.checkShootState cpuNum = none := by
      rw [← Option.not_isSome_iff_eq_none]
      intro hsome
      have hlast : Access.area l.sa.area.capacity ∈ checkAccesses cpuNum :=
        List.mem_map.mpr ⟨_, List.mem_range.mpr hcpu, rfl⟩
      have hcell := allocated_area.mp ((check_isSome_iff cpuNum { l with sa }).mp hsome _ hlast)
      have hcapacity := shotArea_capacity harea
      dsimp only at hcell
      omega
    simp [afterShoot, herr, hnone]

end Shoot

end Lord

end CosUserspace
