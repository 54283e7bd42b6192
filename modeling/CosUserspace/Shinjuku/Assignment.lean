import CosUserspace.Shinjuku.Lord

/-!
# What ShinjukuLord places

The pools list CPUs that may be shot onto, none twice, and the loop takes a fresh one for every task it places. The loop stops with an error only if the epistle does; classifying the CPUs can also stop at a record that names a task which is not there or not OnCpu.
-/

namespace CosUserspace

open Shinjuku

namespace ShinjukuLord

/-- The CPUs a Shinjuku lord shoots onto: a CPU marked COS only if its task may be displaced. -/
structure Avail (cpuNum : Nat) (input : ScheduleInput) (l : ShinjukuLord) (cpu : Nat) : Prop where
  first : 3 ≤ cpu
  lt : cpu < cpuNum
  not_lord : (cpu : Int) ≠ l.lordCpu
  displaces : (l.cpuStates.cell cpu).type = .cos → ∃ task,
    l.aliveTasks (l.cpuStates.cell cpu).pid = some task ∧ task.state = .onCpu ∧ preemptable input task = .ok true

/-- What `ShinjukuLord` places: the CPU is marked with the task, and its record before is saved. -/
abbrev Placed (cpuNum : Nat) (input : ScheduleInput) (l l' : ShinjukuLord) (r : Round Shinjuku.CpuState) : Prop :=
  Assigned input.currentTime (fun tid => (⟨.cos, tid⟩ : Shinjuku.CpuState)) (fun cpu => l.cpuStates.cell cpu)
    (l.Avail cpuNum input) l l' r

/-! ### The pools -/

variable {cpuNum : Nat} {input : ScheduleInput} {l : ShinjukuLord}

theorem Pools.cpus_perm_idle (pools : Pools) (cpu : Nat) :
    ({ pools with idleCpu := pools.idleCpu ++ [cpu] } : Pools).cpus.Perm (pools.cpus ++ [cpu]) := by
  simp only [Pools.cpus, List.append_assoc]
  exact List.Perm.append_left _ (List.perm_append_comm.trans (by simp))

theorem Pools.cpus_perm_cfs (pools : Pools) (cpu : Nat) :
    ({ pools with cfsCpu := pools.cfsCpu ++ [cpu] } : Pools).cpus.Perm (pools.cpus ++ [cpu]) := by
  simp only [Pools.cpus, List.append_assoc]
  exact List.Perm.append_left _ (List.Perm.append_left _ List.perm_append_comm)

theorem Pools.cpus_perm_cos (pools : Pools) (cpu : Nat) :
    ({ pools with cosCpu := pools.cosCpu ++ [cpu] } : Pools).cpus.Perm (pools.cpus ++ [cpu]) := by
  simp [Pools.cpus]

/-- Of the CPUs ahead some enter the pools, each of them one to shoot onto. -/
theorem classify_ok {cpus : List Nat} {pools pools' : Pools} (hok : classify input l cpus pools = .ok pools')
    (hfirst : ∀ cpu ∈ cpus, 3 ≤ cpu) (hlt : ∀ cpu ∈ cpus, cpu < cpuNum) :
    ∃ entered : List Nat, entered.Sublist cpus ∧ pools'.cpus.Perm (pools.cpus ++ entered) ∧
      ∀ cpu ∈ entered, l.Avail cpuNum input cpu := by
  induction cpus generalizing pools with
  | nil =>
    obtain rfl := Except.ok.inj hok
    exact ⟨[], .refl _, by simp, by simp⟩
  | cons cpu cpus ih =>
    obtain ⟨hcpuFirst, hfirst⟩ := List.forall_mem_cons.mp hfirst
    obtain ⟨hcpuLt, hlt⟩ := List.forall_mem_cons.mp hlt
    -- the CPU enters no pool
    have skip : ∀ {pools}, classify input l cpus pools = .ok pools' →
        ∃ entered : List Nat, entered.Sublist (cpu :: cpus) ∧ pools'.cpus.Perm (pools.cpus ++ entered) ∧
          ∀ c ∈ entered, l.Avail cpuNum input c := fun hrest => by
      obtain ⟨entered, hsub, hperm, havail⟩ := ih hrest hfirst hlt
      exact ⟨entered, hsub.cons cpu, hperm, havail⟩
    -- the CPU enters a pool
    have enter : ∀ {pools₁ : Pools}, pools₁.cpus.Perm (pools.cpus ++ [cpu]) → l.Avail cpuNum input cpu →
        classify input l cpus pools₁ = .ok pools' →
        ∃ entered : List Nat, entered.Sublist (cpu :: cpus) ∧ pools'.cpus.Perm (pools.cpus ++ entered) ∧
          ∀ c ∈ entered, l.Avail cpuNum input c := fun hone hcpu hrest => by
      obtain ⟨entered, hsub, hperm, havail⟩ := ih hrest hfirst hlt
      refine ⟨cpu :: entered, hsub.cons_cons cpu, hperm.trans ((hone.append_right _).trans (by simp)), ?_⟩
      exact List.forall_mem_cons.mpr ⟨hcpu, havail⟩
    rw [classify] at hok
    split at hok
    · exact skip hok
    rename_i hlord
    cases hread : l.cpuStates.read cpu with
    | none => simp [hread] at hok
    | some state =>
      have hcell : l.cpuStates.cell cpu = state := (Buffer.read_eq_some.mp hread).2
      obtain ⟨type, pid⟩ := state
      simp only [hread] at hok
      cases type with
      | idle =>
        exact enter (pools.cpus_perm_idle cpu) ⟨hcpuFirst, hcpuLt, hlord, by simp [hcell]⟩ hok
      | cfs =>
        exact enter (pools.cpus_perm_cfs cpu) ⟨hcpuFirst, hcpuLt, hlord, by simp [hcell]⟩ hok
      | cos =>
        cases halive : l.aliveTasks pid with
        | none => simp [halive] at hok
        | some task =>
          simp only [halive] at hok
          split at hok
          · cases hok
          rename_i honCpu
          cases hpreempt : preemptable input task with
          | error stop => simp [hpreempt] at hok
          | ok displaced =>
            cases displaced with
            | false => exact skip (by simpa [hpreempt] using hok)
            | true =>
              refine enter (pools.cpus_perm_cos cpu) ⟨hcpuFirst, hcpuLt, hlord, fun _ => ?_⟩
                (by simpa [hpreempt] using hok)
              exact ⟨task, by rw [hcell]; exact halive, not_not.mp honCpu, hpreempt⟩

theorem preemptable_error {task : Task UInt64} {stop : Stop} (herror : preemptable input task = .error stop) :
    input.epistle.get task.pid = .error stop := by
  unfold preemptable at herror
  split at herror
  · cases herror
  · cases hhint : input.epistle.get task.pid with
    | error stop' =>
      rw [hhint] at herror
      exact congrArg Except.error (Except.error.inj herror)
    | ok hint =>
      rw [hhint] at herror
      cases herror

/-- With an OnCpu task on every CPU of type COS the classification stops only where the epistle does. -/
theorem classify_error {cpus : List Nat} {pools : Pools} {stop : Stop}
    (howned : ∀ cpu ∈ cpus, (l.cpuStates.cell cpu).type = .cos →
      ∃ task, l.aliveTasks (l.cpuStates.cell cpu).pid = some task ∧ task.state = .onCpu)
    (herror : classify input l cpus pools = .error stop) :
    stop = .outOfRange ∨ ∃ key, input.epistle.get key = .error stop := by
  induction cpus generalizing pools with
  | nil => cases herror
  | cons cpu cpus ih =>
    obtain ⟨howner, howned⟩ := List.forall_mem_cons.mp howned
    rw [classify] at herror
    split at herror
    · exact ih howned herror
    cases hread : l.cpuStates.read cpu with
    | none =>
      rw [hread] at herror
      exact .inl (Except.error.inj herror).symm
    | some state =>
      have hcell : l.cpuStates.cell cpu = state := (Buffer.read_eq_some.mp hread).2
      rw [hcell] at howner
      obtain ⟨type, pid⟩ := state
      simp only [hread] at herror
      cases type with
      | idle | cfs => exact ih howned herror
      | cos =>
        obtain ⟨task, halive, honCpu⟩ := howner rfl
        simp only [halive, honCpu, ne_eq, not_true_eq_false, if_false] at herror
        cases hpreempt : preemptable input task with
        | ok displaced =>
          rw [hpreempt] at herror
          cases displaced with
          | true => exact ih howned herror
          | false => exact ih howned herror
        | error stop' =>
          rw [hpreempt] at herror
          obtain rfl := Except.error.inj herror
          exact .inr ⟨task.pid, preemptable_error hpreempt⟩

/-! ### The loop -/

theorem toInt32_ne_zero {tid : UInt32} : tid.toInt32 ≠ 0 ↔ tid ≠ 0 := by
  refine not_congr ⟨fun h => ?_, fun h => by rw [h]; rfl⟩
  rw [← UInt32.toUInt32_toInt32 tid, h]
  rfl

/-- The run queue while the loop runs: the tasks set aside, and those still ahead. -/
def withQueue (onqueueIdle rest : RunQueue) (l : ShinjukuLord) : ShinjukuLord := { l with rq := onqueueIdle ++ rest }

/-- The loop places tasks on CPUs of the pools, or stops where the epistle does. -/
theorem assignLoop_placed (hsound : l.Sound cpuNum) {rq : RunQueue} {pools : Pools} {onqueueIdle : RunQueue}
    {l₁ : ShinjukuLord} {r : Round Shinjuku.CpuState}
    (hplaced : Placed cpuNum input l (l₁.withQueue onqueueIdle rq) r)
    (hnodup : (r.pairs.map Prod.fst ++ pools.cpus).Nodup) (havail : ∀ cpu ∈ pools.cpus, l.Avail cpuNum input cpu)
    (hidle : 0 ∉ onqueueIdle) :
    (∃ key stop, key ≠ 0 ∧ input.epistle.get key = .error stop ∧
      assignLoop input rq pools onqueueIdle l₁ r = .error stop) ∨
    ∃ onqueueIdle' l₂ r₂, assignLoop input rq pools onqueueIdle l₁ r = .ok (onqueueIdle', l₂, r₂) ∧
      Placed cpuNum input l (l₂.withQueue onqueueIdle' l₂.rq) r₂ ∧ 0 ∉ onqueueIdle' := by
  induction rq generalizing pools onqueueIdle l₁ r with
  | nil => exact .inr ⟨onqueueIdle, _, r, rfl, hplaced, hidle⟩
  | cons head rest ih =>
    rw [assignLoop]
    by_cases hzero : head.toInt32 = 0
    · rw [if_pos hzero]
      exact .inr ⟨onqueueIdle, _, r, rfl, hplaced, hidle⟩
    have hhead : head ≠ 0 := toInt32_ne_zero.mp hzero
    rw [if_neg hzero]
    cases hhint : input.epistle.get head.toInt32 with
    | error stop => exact .inl ⟨head.toInt32, stop, hzero, hhint, rfl⟩
    | ok hint =>
      dsimp only
      rw [UInt32.toUInt32_toInt32]
      by_cases hset : hint = epistleThreadIdle
      · rw [if_pos hset]
        refine ih ?_ hnodup havail ?_
        · have hperm : (onqueueIdle ++ head :: rest).Perm (onqueueIdle.enqueue head ++ rest) := by
            simp [RunQueue.enqueue]
          exact hplaced.reorder hperm
        · simpa [RunQueue.enqueue, hidle] using hhead.symm
      · rw [if_neg hset]
        cases htake : pools.take with
        | none => exact .inr ⟨onqueueIdle, _, r, rfl, hplaced, hidle⟩
        | some taken =>
          obtain ⟨cpu, pools'⟩ := taken
          have hcpus := Pools.take_eq_some htake
          rw [hcpus] at hnodup havail
          obtain ⟨hcpuAvail, havail⟩ := List.forall_mem_cons.mp havail
          have hcpuNew : cpu ∉ r.pairs.map Prod.fst := fun hmem =>
            (List.nodup_append.mp hnodup).2.2 cpu hmem cpu List.mem_cons_self rfl
          have hqueue : (onqueueIdle ++ head :: rest).Perm (head :: (onqueueIdle ++ rest)) := List.perm_middle
          obtain ⟨-, task, -, -, halive, hkey⟩ :=
            hplaced.waiting hsound (hqueue.mem_iff.mpr List.mem_cons_self)
          have halive₁ : l₁.aliveTasks head = some task := halive
          have hbound : cpu < l₁.cpuStates.capacity := by
            have hcapacity : l₁.cpuStates.capacity = l.cpuStates.capacity := hplaced.capacity_eq
            rw [hcapacity, hsound.capacity]
            exact hcpuAvail.lt
          have hcell : l₁.cpuStates.cell cpu = l.cpuStates.cell cpu := hplaced.untouched cpu hcpuNew
          have hnext := hplaced.place hsound hqueue halive hcpuNew hcpuAvail hhead
          simp only [halive₁, Buffer.read_natCast hbound, Lord.modifyCpu, Lord.setTask,
            Buffer.modify_natCast _ hbound, hkey, hcell]
          refine ih hnext ?_ havail hidle
          rw [Round.pairs_push, List.map_append, List.append_assoc]
          exact hnodup

/-- Whatever the state of the tables, the loop changes them by shots onto the CPUs of the pools. -/
theorem assignLoop_kept {P : ShinjukuLord → Prop} (hP : Lord.KeptByShots cpuNum P) {rq : RunQueue} {pools : Pools}
    {onqueueIdle onqueueIdle' : RunQueue} {l l' : ShinjukuLord} {r r' : Round Shinjuku.CpuState}
    (hlt : ∀ cpu ∈ pools.cpus, cpu < cpuNum) (h : P l) (hr : r.Ranged cpuNum)
    (hok : assignLoop input rq pools onqueueIdle l r = .ok (onqueueIdle', l', r')) : P l' ∧ r'.Ranged cpuNum := by
  induction rq generalizing pools onqueueIdle l r with
  | nil =>
    obtain ⟨-, heq⟩ := Prod.mk.inj (Except.ok.inj hok)
    obtain ⟨rfl, rfl⟩ := Prod.mk.inj heq
    exact ⟨hP.rq _ h, hr⟩
  | cons head rest ih =>
    rw [assignLoop] at hok
    split at hok
    · obtain ⟨-, heq⟩ := Prod.mk.inj (Except.ok.inj hok)
      obtain ⟨rfl, rfl⟩ := Prod.mk.inj heq
      exact ⟨hP.rq _ h, hr⟩
    split at hok
    · cases hok
    split at hok
    · exact ih hlt h hr hok
    split at hok
    · obtain ⟨-, heq⟩ := Prod.mk.inj (Except.ok.inj hok)
      obtain ⟨rfl, rfl⟩ := Prod.mk.inj heq
      exact ⟨hP.rq _ h, hr⟩
    rename_i cpu pools' htake
    rw [Pools.take_eq_some htake] at hlt
    obtain ⟨hcpu, hlt⟩ := List.forall_mem_cons.mp hlt
    split at hok
    · cases hok
    split at hok
    · cases hok
    split at hok
    · cases hok
    rename_i hmodify
    exact ih hlt (hP.modifyCpu hmodify (hP.shootOn hcpu h)) (hr.push hcpu ..) hok

/-- The pools of a call list CPUs to shoot onto, none twice. -/
theorem classify_pools {pools : Pools} (hok : classify input l (List.range' 3 (cpuNum - 3)) .empty = .ok pools) :
    pools.cpus.Nodup ∧ ∀ cpu ∈ pools.cpus, l.Avail cpuNum input cpu := by
  obtain ⟨entered, hsub, hperm, havail⟩ := classify_ok hok (fun cpu hmem => (List.mem_range'_1.mp hmem).1)
    fun cpu hmem => show cpu < cpuNum by
      have hcpu := List.mem_range'_1.mp hmem
      omega
  have hentered : pools.cpus.Perm entered := by simpa [Pools.empty, Pools.cpus] using hperm
  refine ⟨?_, fun cpu hmem => havail cpu (hentered.mem_iff.mp hmem)⟩
  rw [hentered.nodup_iff]
  exact hsub.nodup List.nodup_range'

theorem assigns_by_shots (cpuNum : Nat) : (shinjuku cpuNum).AssignsByShots := by
  intro P hP input l l' r h hok
  have hassign : assign cpuNum input l = .ok (l', r) := hok
  unfold assign at hassign
  split at hassign
  · cases hassign
  rename_i hclassify
  split at hassign
  · cases hassign
  rename_i hloop
  obtain ⟨rfl, rfl⟩ := Prod.mk.inj (Except.ok.inj hassign)
  obtain ⟨-, havail⟩ := classify_pools hclassify
  obtain ⟨h, hr⟩ := assignLoop_kept hP (fun cpu hmem => (havail cpu hmem).lt) h .empty hloop
  exact ⟨hP.rq _ h, hr⟩

theorem moveBack_eq {onqueueIdle : RunQueue} (rq : RunQueue) (hidle : 0 ∉ onqueueIdle) :
    moveBack onqueueIdle rq = rq ++ onqueueIdle := by
  induction onqueueIdle generalizing rq with
  | nil => simp [moveBack]
  | cons tid onqueueIdle ih =>
    rw [List.mem_cons, not_or] at hidle
    rw [moveBack, if_neg (Ne.symm hidle.1), ih _ hidle.2]
    simp [RunQueue.enqueue]

/-- `assign` places tasks, unless it stops in the classification or where the epistle does. -/
theorem assign_placed (hsound : l.Sound cpuNum) {pools : Pools}
    (hclassify : classify input l (List.range' 3 (cpuNum - 3)) .empty = .ok pools) :
    (∃ key stop, key ≠ 0 ∧ input.epistle.get key = .error stop ∧ assign cpuNum input l = .error stop) ∨
    ∃ l₁ r, assign cpuNum input l = .ok (l₁, r) ∧ Placed cpuNum input l l₁ r := by
  obtain ⟨hnodup, havail⟩ := classify_pools hclassify
  have hstart : Placed cpuNum input l (l.withQueue [] l.rq) .empty := .start
  rcases assignLoop_placed hsound hstart (by simpa using hnodup) havail (by simp) with
      ⟨key, stop, hkey, hget, herror⟩ | ⟨onqueueIdle, l₂, r, hok, hplaced, hidle⟩
  · exact .inl ⟨key, stop, hkey, hget, by simp only [assign, hclassify, herror]⟩
  · refine .inr ⟨{ l₂ with rq := moveBack onqueueIdle l₂.rq }, r, by simp only [assign, hclassify, hok], ?_⟩
    rw [moveBack_eq _ hidle]
    exact hplaced.reorder List.perm_append_comm

theorem assign_error (hsound : l.Sound cpuNum) {stop : Stop}
    (howned : ∀ cpu < cpuNum, (l.cpuStates.cell cpu).type = .cos →
      ∃ task, l.aliveTasks (l.cpuStates.cell cpu).pid = some task ∧ task.state = .onCpu)
    (herror : assign cpuNum input l = .error stop) :
    stop = .outOfRange ∨ ∃ key, input.epistle.get key = .error stop := by
  cases hclassify : classify input l (List.range' 3 (cpuNum - 3)) .empty with
  | error stop' =>
    simp only [assign, hclassify, Except.error.injEq] at herror
    subst herror
    apply classify_error _ hclassify
    intro cpu hmem
    have hcpu := List.mem_range'_1.mp hmem
    exact howned cpu (by omega)
  | ok pools =>
    rcases assign_placed hsound hclassify with ⟨key, stop', -, hget, hstop⟩ | ⟨l₂, r₂, hok, -⟩
    · obtain rfl := Except.error.inj (hstop.symm.trans herror)
      exact .inr ⟨key, hget⟩
    · rw [hok] at herror
      cases herror

theorem placed_of_assign (cpuNum : Nat) (hsound : l.Sound cpuNum) {l₁ : ShinjukuLord} {r : Round Shinjuku.CpuState}
    (hassign : assign cpuNum input l = .ok (l₁, r)) : Placed cpuNum input l l₁ r := by
  cases hclassify : classify input l (List.range' 3 (cpuNum - 3)) .empty with
  | error stop => simp [assign, hclassify] at hassign
  | ok pools =>
    rcases assign_placed hsound hclassify with ⟨key, stop, -, -, herror⟩ | ⟨l₂, r₂, hok, hplaced⟩
    · rw [herror] at hassign
      cases hassign
    · obtain ⟨rfl, rfl⟩ := Prod.mk.inj (Except.ok.inj (hassign.symm.trans hok))
      exact hplaced

end ShinjukuLord

def shinjukuDiscipline (cpuNum : Nat) : (shinjuku cpuNum).Discipline where
  now := (·.currentTime)
  mark := fun tid => ⟨.cos, tid⟩
  saved := fun l cpu => l.cpuStates.cell cpu
  avail := fun input l => ShinjukuLord.Avail cpuNum input l
  avail_lt := fun _ _ _ h => h.lt
  assigned := fun hsound hassign => ShinjukuLord.placed_of_assign cpuNum hsound hassign

end CosUserspace
