import CosUserspace.Fifo.Lord
import CosUserspace.Lord.Subscripts
import CosUserspace.Shinjuku.Assignment

/-!
# Subscripts and containers

The constructors call `cpu_states_.reserve(cpu_num)`, which leaves the size of the vector at zero, and write `cpu_states_[i]` for every CPU. Nothing resizes the vector afterwards, so no access to it is ever below its size, in any run, although every one is below the reserved capacity. The accesses to the shoot area are below its size as long as the CPUs are.
-/

namespace CosUserspace

open Shinjuku

variable {θ κ ι : Type}

/-! ### The range of the subscripts -/

/-- What any answer of the kernel leaves true: the vector has no element, and the CPU of a task that is OnCpu is one of the machine. -/
structure Lord.Ranged (cpuNum : Nat) (l : Lord θ κ) : Prop where
  size : l.cpuStates.size = 0
  capacity : l.cpuStates.capacity = cpuNum
  area : l.sa.area.capacity = shootAreaSize
  onCpu : ∀ tid task, l.aliveTasks tid = some task → task.state = .onCpu → 0 ≤ task.cpuId ∧ task.cpuId < cpuNum

namespace Lord

variable {cpuNum : Nat} {l l' : Lord θ κ}

theorem Ranged.new [CpuRecord κ] (cpuNum : Nat) (lordCpu : Int) (lordPid : UInt32) :
    (Lord.new cpuNum lordCpu lordPid : Lord θ κ).Ranged cpuNum where
  size := by simp [Lord.new, Buffer.reserve]
  capacity := by simp [Lord.new, Buffer.reserve]
  area := rfl
  onCpu := by simp [Lord.new]

/-- The tasks may change as long as those that are OnCpu stay in the range. -/
theorem Ranged.of_same (h : l.Ranged cpuNum) (hsame : SameContainers l l')
    (honCpu : ∀ tid task, l'.aliveTasks tid = some task → task.state = .onCpu → 0 ≤ task.cpuId ∧ task.cpuId < cpuNum) :
    l'.Ranged cpuNum :=
  ⟨hsame.size_eq.trans h.size, hsame.capacity_eq.trans h.capacity, hsame.area_eq.trans h.area, honCpu⟩

theorem Ranged.setTask (h : l.Ranged cpuNum) {tid : UInt32} {task : Task θ}
    (htask : task.state = .onCpu → 0 ≤ task.cpuId ∧ task.cpuId < cpuNum) : (l.setTask tid task).Ranged cpuNum := by
  refine h.of_same ⟨rfl, rfl, rfl⟩ fun t task' halive honCpu => ?_
  have hcases : Function.update l.aliveTasks tid (some task) t = some task' := halive
  by_cases ht : t = tid
  · rw [ht, Function.update_self] at hcases
    obtain rfl := Option.some.inj hcases
    exact htask honCpu
  · rw [Function.update_of_ne ht] at hcases
    exact h.onCpu t task' hcases honCpu

theorem Ranged.modifyCpu (h : l.Ranged cpuNum) {cpu : Int} {f : κ → κ} (hok : l.modifyCpu cpu f = .ok l') :
    l'.Ranged cpuNum := by
  apply h.of_same (.modifyCpu hok)
  rw [modifyCpu_ok hok]
  exact h.onCpu

theorem Ranged.keptByShots (cpuNum : Nat) : KeptByShots cpuNum (Ranged cpuNum : Lord θ κ → Prop) where
  rq _ h := ⟨h.size, h.capacity, h.area, h.onCpu⟩
  sa hcapacity h := ⟨h.size, h.capacity, hcapacity.trans h.area, h.onCpu⟩
  setTask hstate h := h.setTask fun honCpu => absurd honCpu hstate
  eraseTask := by
    intro l tid h
    refine h.of_same ⟨rfl, rfl, rfl⟩ fun t task halive honCpu => ?_
    have hcases : Function.update l.aliveTasks tid none t = some task := halive
    by_cases ht : t = tid
    · rw [ht, Function.update_self] at hcases
      cases hcases
    · rw [Function.update_of_ne ht] at hcases
      exact h.onCpu t task hcases honCpu
  modifyCpu hok h := h.modifyCpu hok
  shootOn := by
    intro l tid task now cpu hcpu h
    apply h.setTask
    intro
    show (0 : Int) ≤ cpu ∧ (cpu : Int) < cpuNum
    omega

theorem Ranged.handleAccesses (h : l.Ranged cpuNum) (m : CosMsg) :
    ∀ a ∈ l.handleAccesses m, a.Below cpuNum cpuNum := by
  have htask : ∀ task, l.aliveTasks m.pid.toUInt32 = some task → ∀ a ∈ taskAccesses task, a.Below cpuNum cpuNum := by
    intro task halive a ha
    unfold taskAccesses at ha
    split at ha
    · rename_i honCpu
      rw [List.mem_singleton.mp ha]
      exact h.onCpu _ task halive honCpu
    · cases ha
  intro a ha
  unfold Lord.handleAccesses at ha
  split at ha
  · exact htask _ ‹_› a ha
  · exact htask _ ‹_› a ha
  · exact htask _ ‹_› a ha
  · exact htask _ ‹_› a ha
  · cases ha

theorem below_cpuStates {cpu : Nat} (hcpu : cpu < cpuNum) : (Access.cpuStates cpu).Below cpuNum cpuNum :=
  ⟨Int.natCast_nonneg cpu, Int.ofNat_lt.mpr hcpu⟩

theorem below_ofCpu {cpus : List Nat} (hlt : ∀ cpu ∈ cpus, cpu < cpuNum) :
    ∀ a ∈ cpus.map Access.ofCpu, a.Below cpuNum cpuNum := by
  intro a ha
  obtain ⟨cpu, hcpu, rfl⟩ := List.mem_map.mp ha
  exact below_cpuStates (hlt cpu hcpu)

theorem below_area {cpu : Nat} (hcpu : cpu < cpuNum) : (Access.area cpu).Below cpuNum cpuNum :=
  ⟨Int.natCast_nonneg cpu, Int.ofNat_lt.mpr hcpu⟩

theorem revertFailedAccesses_below {saved : List (Nat × κ)} (hsaved : ∀ entry ∈ saved, entry.1 < cpuNum)
    (fail : List (Nat × Int32)) (l : Lord θ κ) :
    ∀ a ∈ l.revertFailedAccesses saved fail, a.Below cpuNum cpuNum := by
  induction fail generalizing l with
  | nil =>
    intro a ha
    cases ha
  | cons shot fail ih =>
    obtain ⟨cpu, pid⟩ := shot
    intro a ha
    rw [revertFailedAccesses] at ha
    split at ha
    · cases ha
    rcases List.mem_append.mp ha with hfirst | hrest
    · split at hfirst
      · rename_i hlookup
        obtain ⟨old, hold⟩ := Option.isSome_iff_exists.mp hlookup
        obtain ⟨before, after, hsplit, -⟩ := List.lookup_eq_some_iff.mp hold
        rw [List.mem_singleton.mp hfirst]
        exact below_cpuStates (hsaved (cpu, old) (by simp [hsplit]))
      · cases hfirst
    · split at hrest
      · cases hrest
      · exact ih _ a hrest

theorem shootAccesses_below {r : Round κ} (hr : r.Ranged cpuNum) (answer : ShootAnswer) (l : Lord θ κ) :
    ∀ a ∈ l.shootAccesses cpuNum answer r, a.Below cpuNum cpuNum := by
  intro a ha
  unfold shootAccesses at ha
  split at ha
  · cases ha
  rcases List.mem_append.mp ha with hcommit | hrest
  · obtain ⟨entry, hentry, rfl⟩ := List.mem_map.mp hcommit
    exact below_area (hr.assigned entry hentry)
  split at hrest
  · cases hrest
  split at hrest
  · unfold revertAllAccesses at hrest
    split at hrest
    · cases hrest
    · obtain ⟨entry, hentry, rfl⟩ := List.mem_map.mp hrest
      exact below_cpuStates (hr.saved entry hentry)
  rcases List.mem_append.mp hrest with hcheck | hfailed
  · obtain ⟨cpu, hcpu, rfl⟩ := List.mem_map.mp hcheck
    exact below_area (List.mem_range.mp hcpu)
  · split at hfailed
    · cases hfailed
    · exact revertFailedAccesses_below hr.saved _ _ a hfailed

end Lord

/-! ### Assignment -/

namespace FifoLord

/-- The loop of `schedule`: the write to a CPU and the copy of it follow its test. -/
def assignAccesses : List Nat → FifoLord → List Access
  | [], _ => []
  | cpu :: cpus, l =>
    if (cpu : Int) = l.lordCpu then assignAccesses cpus l
    else
      .cpuStates cpu ::
        match l.cpuStates.read cpu with
        | none => []
        | some .cos => assignAccesses cpus l
        | some _ =>
          let tid : Int32 := l.rq.peek.toInt32
          if tid = 0 then []
          else
            match l.aliveTasks tid.toUInt32 with
            | none => []
            | some next =>
              match (l.setTask tid.toUInt32 (next.shootOn () cpu)).modifyCpu cpu fun _ => .cos with
              | .error _ => []
              | .ok l => assignAccesses cpus { l with rq := l.rq.dequeue }

theorem assignLoop_checks (cpus : List Nat) (l : FifoLord) (r : Round Fifo.CpuState) :
    l.Checks (assignLoop cpus l r) (assignAccesses cpus l) := by
  induction cpus generalizing l r with
  | nil => exact .ok (l, r)
  | cons cpu cpus ih =>
    rw [assignLoop, assignAccesses]
    split
    · exact ih l r
    by_cases hcpu : l.Allocated (.cpuStates cpu)
    swap
    · rw [Lord.read_of_not_allocated hcpu]
      exact .stop hcpu
    rw [Lord.read_of_allocated hcpu]
    apply Lord.Checks.cons hcpu
    cases l.cpuStates.cell (cpu : Int).toNat with
    | cos => exact ih l r
    | idle | nocos =>
      dsimp only
      split
      · exact .ok (l, r)
      cases l.aliveTasks l.rq.peek.toInt32.toUInt32 with
      | none => exact .nothing (by simp)
      | some next =>
        obtain ⟨l', hok, hsame⟩ := Lord.modifyCpu_of_allocated
          (l := l.setTask l.rq.peek.toInt32.toUInt32 (next.shootOn () cpu)) hcpu fun _ => .cos
        have hcpu' : l'.Allocated (.cpuStates cpu) := hsame.allocated_iff.mpr hcpu
        simp only [hok, Lord.read_of_allocated hcpu']
        exact .of_same ⟨hsame.size_eq, hsame.capacity_eq, hsame.area_eq⟩ (ih _ _)

theorem assignAccesses_subset (cpus : List Nat) (l : FifoLord) : assignAccesses cpus l ⊆ cpus.map .ofCpu := by
  induction cpus generalizing l with
  | nil => exact List.nil_subset _
  | cons cpu cpus ih =>
    rw [assignAccesses, List.map_cons]
    split
    · exact List.subset_cons_of_subset _ (ih l)
    apply List.cons_subset_cons
    split
    · exact List.nil_subset _
    · exact ih l
    dsimp only
    split
    · exact List.nil_subset _
    split
    · exact List.nil_subset _
    split
    · exact List.nil_subset _
    · exact ih _

end FifoLord

namespace ShinjukuLord

/-- The loop `for (int cpu = 3; cpu < cpu_num; cpu++)`. -/
def classifyAccesses (input : ScheduleInput) (l : ShinjukuLord) : List Nat → List Access
  | [] => []
  | cpu :: cpus =>
    if (cpu : Int) = l.lordCpu then classifyAccesses input l cpus
    else
      .cpuStates cpu ::
        match l.cpuStates.read cpu with
        | none => []
        | some ⟨.idle, _⟩ | some ⟨.cfs, _⟩ => classifyAccesses input l cpus
        | some ⟨.cos, pid⟩ =>
          match l.aliveTasks pid with
          | none => []
          | some task =>
            if task.state ≠ .onCpu then []
            else
              match preemptable input task with
              | .error _ => []
              | .ok _ => classifyAccesses input l cpus

/-- The loop `while (true)`: the copy of a CPU comes before the writes to it. -/
def assignLoopAccesses (input : ScheduleInput) : RunQueue → Pools → ShinjukuLord → List Access
  | [], _, _ => []
  | head :: rest, pools, l =>
    let tid : Int32 := head.toInt32
    if tid = 0 then []
    else
      match input.epistle.get tid with
      | .error _ => []
      | .ok hint =>
        if hint = epistleThreadIdle then assignLoopAccesses input rest pools l
        else
          match pools.take with
          | none => []
          | some (cpu, pools) =>
            match l.aliveTasks tid.toUInt32 with
            | none => []
            | some next =>
              .cpuStates cpu ::
                match (l.setTask tid.toUInt32 (next.shootOn input.currentTime cpu)).modifyCpu cpu
                    fun _ => ⟨.cos, next.pid.toUInt32⟩ with
                | .error _ => []
                | .ok l => assignLoopAccesses input rest pools l

def assignAccesses (cpuNum : Nat) (input : ScheduleInput) (l : ShinjukuLord) : List Access :=
  classifyAccesses input l (List.range' 3 (cpuNum - 3)) ++
    match classify input l (List.range' 3 (cpuNum - 3)) .empty with
    | .error _ => []
    | .ok pools => assignLoopAccesses input l.rq pools l

theorem get_ne {input : ScheduleInput} {key : Int32} : input.epistle.get key ≠ .error .outOfRange := by
  intro herror
  rcases Epistle.get_error herror with hkey | hspins
  · cases hkey
  · cases hspins

theorem classify_checks (input : ScheduleInput) (l : ShinjukuLord) (cpus : List Nat) (pools : Pools) :
    l.Checks (classify input l cpus pools) (classifyAccesses input l cpus) := by
  induction cpus generalizing pools with
  | nil => exact .ok pools
  | cons cpu cpus ih =>
    rw [classify, classifyAccesses]
    split
    · exact ih pools
    by_cases hcpu : l.Allocated (.cpuStates cpu)
    swap
    · rw [Lord.read_of_not_allocated hcpu]
      exact .stop hcpu
    rw [Lord.read_of_allocated hcpu]
    apply Lord.Checks.cons hcpu
    obtain ⟨type, pid⟩ := l.cpuStates.cell (cpu : Int).toNat
    cases type with
    | idle | cfs => exact ih _
    | cos =>
      dsimp only
      cases l.aliveTasks pid with
      | none => exact .nothing (by simp)
      | some task =>
        dsimp only
        split
        · exact .nothing (by simp)
        cases hpreempt : preemptable input task with
        | error stop => exact .passed_on get_ne (preemptable_error hpreempt)
        | ok displaced =>
          cases displaced with
          | true => exact ih _
          | false => exact ih _

theorem assignLoop_checks (input : ScheduleInput) (rq : RunQueue) (pools : Pools) (onqueueIdle : RunQueue)
    (l : ShinjukuLord) (r : Round Shinjuku.CpuState) :
    l.Checks (assignLoop input rq pools onqueueIdle l r) (assignLoopAccesses input rq pools l) := by
  induction rq generalizing pools onqueueIdle l r with
  | nil => exact .ok _
  | cons head rest ih =>
    rw [assignLoop, assignLoopAccesses]
    split
    · exact .ok _
    cases hget : input.epistle.get head.toInt32 with
    | error stop => exact .passed_on get_ne hget
    | ok hint =>
      dsimp only
      split
      · exact ih ..
      cases pools.take with
      | none => exact .ok _
      | some taken =>
        obtain ⟨cpu, pools⟩ := taken
        dsimp only
        cases l.aliveTasks head.toInt32.toUInt32 with
        | none => exact .nothing (by simp)
        | some next =>
          dsimp only
          by_cases hcpu : l.Allocated (.cpuStates cpu)
          · obtain ⟨l', hok, hsame⟩ := Lord.modifyCpu_of_allocated
              (l := l.setTask head.toInt32.toUInt32 (next.shootOn input.currentTime cpu)) hcpu
              fun _ => ⟨.cos, next.pid.toUInt32⟩
            rw [Lord.read_of_allocated hcpu]
            simp only [hok]
            exact .cons hcpu (.of_same ⟨hsame.size_eq, hsame.capacity_eq, hsame.area_eq⟩ (ih ..))
          · rw [Lord.read_of_not_allocated hcpu]
            exact .stop hcpu

theorem classifyAccesses_subset (input : ScheduleInput) (l : ShinjukuLord) (cpus : List Nat) :
    classifyAccesses input l cpus ⊆ cpus.map .ofCpu := by
  induction cpus with
  | nil => exact List.nil_subset _
  | cons cpu cpus ih =>
    rw [classifyAccesses, List.map_cons]
    split
    · exact List.subset_cons_of_subset _ ih
    apply List.cons_subset_cons
    split
    · exact List.nil_subset _
    · exact ih
    · exact ih
    split
    · exact List.nil_subset _
    split
    · exact List.nil_subset _
    split
    · exact List.nil_subset _
    · exact ih

theorem assignLoopAccesses_subset (input : ScheduleInput) (rq : RunQueue) (pools : Pools) (l : ShinjukuLord) :
    assignLoopAccesses input rq pools l ⊆ pools.cpus.map .ofCpu := by
  induction rq generalizing pools l with
  | nil => exact List.nil_subset _
  | cons head rest ih =>
    rw [assignLoopAccesses]
    split
    · exact List.nil_subset _
    split
    · exact List.nil_subset _
    split
    · exact ih ..
    split
    · exact List.nil_subset _
    rename_i cpu pools' htake
    rw [Pools.take_eq_some htake, List.map_cons]
    split
    · exact List.nil_subset _
    apply List.cons_subset_cons
    split
    · exact List.nil_subset _
    · exact ih ..

theorem assign_checks (cpuNum : Nat) (input : ScheduleInput) (l : ShinjukuLord) :
    l.Checks (assign cpuNum input l) (assignAccesses cpuNum input l) := by
  have hclassify := classify_checks input l (List.range' 3 (cpuNum - 3)) .empty
  cases hok : classify input l (List.range' 3 (cpuNum - 3)) .empty with
  | error stop =>
    rw [hok] at hclassify
    simp only [assign, assignAccesses, hok]
    exact hclassify.append_stop
  | ok pools =>
    rw [hok] at hclassify
    have hmap : assign cpuNum input l = (assignLoop input l.rq pools [] l .empty).map
        fun placed => ({ placed.2.1 with rq := moveBack placed.1 placed.2.1.rq }, placed.2.2) := by
      simp only [assign, hok]
      cases assignLoop input l.rq pools [] l .empty <;> rfl
    rw [hmap]
    simp only [assignAccesses, hok]
    exact .append (hclassify.all_allocated (by simp)) ((assignLoop_checks ..).map _)

theorem assignAccesses_below {cpuNum : Nat} (input : ScheduleInput) (l : ShinjukuLord) :
    ∀ a ∈ assignAccesses cpuNum input l, a.Below cpuNum cpuNum := by
  intro a ha
  rcases List.mem_append.mp ha with hclassify | hloop
  · refine Lord.below_ofCpu (fun cpu hmem => ?_) a (classifyAccesses_subset _ _ _ hclassify)
    have hcpu := List.mem_range'_1.mp hmem
    omega
  · split at hloop
    · cases hloop
    · rename_i hok
      obtain ⟨-, havail⟩ := classify_pools hok
      exact Lord.below_ofCpu (fun cpu hmem => (havail cpu hmem).lt) a (assignLoopAccesses_subset _ _ _ _ hloop)

end ShinjukuLord

/-! ### Runs -/

/-- The subscript is a CPU of the machine. In the vector it has a reserved cell and no element, in the area it is inside as long as the CPUs have a cell each. -/
structure Lord.Reserved (cpuNum : Nat) (l : Lord θ κ) (a : Access) : Prop where
  below : a.Below cpuNum cpuNum
  cpuStates : ∀ i, a = .cpuStates i → l.Allocated a ∧ ¬ l.Inside a
  area : ∀ i, a = .area i → cpuNum ≤ shootAreaSize → l.Inside a

theorem Lord.Ranged.reserved {cpuNum : Nat} {l : Lord θ κ} (h : l.Ranged cpuNum) {a : Access}
    (ha : a.Below cpuNum cpuNum) : l.Reserved cpuNum a where
  below := ha
  cpuStates i heq := by
    subst heq
    obtain ⟨hpos, hlt⟩ := ha
    constructor
    · show 0 ≤ i ∧ i < l.cpuStates.capacity
      rw [h.capacity]
      exact ⟨hpos, hlt⟩
    · show ¬ (0 ≤ i ∧ i < l.cpuStates.size)
      rw [h.size]
      omega
  area i heq hcpu := by
    subst heq
    obtain ⟨hpos, hlt⟩ := ha
    show 0 ≤ i ∧ i < (shootAreaSize : Int)
    omega

namespace Scheduler

section Runs

variable [Inhabited θ] [CpuRecord κ] {S : Scheduler θ κ ι} {l l' : Lord θ κ}

theorem AssignsByShots.ranged_step (hassigns : S.AssignsByShots) (hranged : l.Ranged S.cpuNum) {op : Op ι}
    (hok : S.perform op l = .ok l') : l'.Ranged S.cpuNum := by
  have hkept : Lord.KeptByShots S.cpuNum (Lord.Ranged S.cpuNum : Lord θ κ → Prop) := Lord.Ranged.keptByShots S.cpuNum
  cases op with
  | msg m => exact hkept.handle hranged hok
  | schedule input =>
    have hschedule : S.schedule input l = .ok l' := hok
    unfold schedule at hschedule
    split at hschedule
    · cases hschedule
    · rename_i hassign
      obtain ⟨hranged₁, -⟩ := hassigns _ hkept _ _ _ _ hranged hassign
      exact hkept.shoot hranged₁ hschedule

/-- **In every run the CPU of a task that is OnCpu is one of the machine**, whatever the messages and answers. -/
theorem AssignsByShots.ranged (hassigns : S.AssignsByShots) {allowed : Lord θ κ → Op ι → Prop} {lordCpu : Int}
    {lordPid : UInt32} {ops : List (Op ι)} (hrun : Runs (S.Step allowed) (Lord.new S.cpuNum lordCpu lordPid) ops l) :
    l.Ranged S.cpuNum :=
  hrun.invariant (P := fun l => l.Ranged S.cpuNum) (.new S.cpuNum lordCpu lordPid)
    fun _ _ _ hranged hstep => hassigns.ranged_step hranged hstep.2

/-- With fewer cells than CPUs the check of a round that the kernel takes runs past the area. -/
theorem AssignsByShots.perform_outOfRange (hassigns : S.AssignsByShots) (hcpu : shootAreaSize < S.cpuNum)
    {allowed : Lord θ κ → Op ι → Prop} {lordCpu : Int} {lordPid : UInt32} {ops : List (Op ι)}
    (hrun : Runs (S.Step allowed) (Lord.new S.cpuNum lordCpu lordPid) ops l) {input : ι} {l₁ : Lord θ κ} {r : Round κ}
    (hok : S.assign input l = .ok (l₁, r)) (hround : r.assigned.isEmpty = false) (herr : (S.answer input).err = 0) :
    S.perform (.schedule input) l = .error .outOfRange := by
  have hranged := hassigns.ranged hrun
  obtain ⟨hranged₁, -⟩ := hassigns _ (Lord.Ranged.keptByShots S.cpuNum) _ _ _ _ hranged hok
  show S.schedule input l = _
  rw [schedule, hok]
  apply Lord.shoot_outOfRange _ hround herr
  rw [hranged₁.area]
  exact hcpu

end Runs

/-- The subscripts that the `assign` of a scheduler uses. -/
structure Subscripts (S : Scheduler θ κ ι) where
  assignAccesses : ι → Lord θ κ → List Access
  checks : ∀ input (l : Lord θ κ), l.Checks (S.assign input l) (assignAccesses input l)
  below : ∀ input l, ∀ a ∈ assignAccesses input l, a.Below S.cpuNum S.cpuNum
  by_shots : S.AssignsByShots

namespace Subscripts

variable {S : Scheduler θ κ ι} (T : S.Subscripts) {l l' : Lord θ κ}

/-- The subscripts that a call uses. -/
def accesses : Op ι → Lord θ κ → List Access
  | .msg m, l => l.handleAccesses m
  | .schedule input, l =>
    T.assignAccesses input l ++
      match S.assign input l with
      | .error _ => []
      | .ok (l, r) => l.shootAccesses S.cpuNum (S.answer input) r

theorem schedule_checks (input : ι) (l : Lord θ κ) :
    l.Checks (S.schedule input l) (T.accesses (.schedule input) l) := by
  have hassign := T.checks input l
  cases hok : S.assign input l with
  | error stop =>
    rw [hok] at hassign
    simp only [schedule, accesses, hok]
    exact hassign.append_stop
  | ok placed =>
    obtain ⟨l₁, r⟩ := placed
    rw [hok] at hassign
    obtain ⟨hsame, -⟩ := T.by_shots _ (Lord.SameContainers.keptByShots S.cpuNum l) _ _ _ _ (.refl l) hok
    simp only [schedule, accesses, hok]
    exact .append (hassign.all_allocated (by simp)) (.of_same hsame (Lord.shoot_checks ..))

theorem accesses_below (hranged : l.Ranged S.cpuNum) (op : Op ι) :
    ∀ a ∈ T.accesses op l, a.Below S.cpuNum S.cpuNum := by
  cases op with
  | msg m => exact hranged.handleAccesses m
  | schedule input =>
    intro a ha
    rcases List.mem_append.mp ha with hassign | hshoot
    · exact T.below input l a hassign
    split at hshoot
    · cases hshoot
    · rename_i hok
      obtain ⟨-, hr⟩ := T.by_shots _ (Lord.Ranged.keptByShots S.cpuNum) _ _ _ _ hranged hok
      exact Lord.shootAccesses_below hr _ _ a hshoot

variable [Inhabited θ] [CpuRecord κ]

/-- **A call stops for a subscript exactly when one that it uses has no cell.** -/
theorem perform_checks (op : Op ι) (l : Lord θ κ) : l.Checks (S.perform op l) (T.accesses op l) := by
  cases op with
  | msg m => exact Lord.handle_checks m l
  | schedule input => exact T.schedule_checks input l

/-- Every access of the run of `ops` from the constructor, under any answers. -/
structure Every (P : Lord θ κ → Access → Prop) (lordCpu : Int) (lordPid : UInt32) (ops : List (Op ι)) : Prop where
  new : ∀ a ∈ Lord.newAccesses S.cpuNum, P (Lord.new S.cpuNum lordCpu lordPid) a
  calls : ∀ before op l, before ++ [op] <+: ops →
    Runs (S.Step fun _ _ => True) (Lord.new S.cpuNum lordCpu lordPid) before l → ∀ a ∈ T.accesses op l, P l a

theorem every_reserved (lordCpu : Int) (lordPid : UInt32) (ops : List (Op ι)) :
    T.Every (Lord.Reserved S.cpuNum) lordCpu lordPid ops where
  new a ha := (Lord.Ranged.new S.cpuNum lordCpu lordPid).reserved
    (Lord.below_ofCpu (fun _ => List.mem_range.mp) a ha)
  calls _ op _ _ hrun a ha :=
    have hranged := T.by_shots.ranged hrun
    hranged.reserved (T.accesses_below hranged op a ha)

/-- The constructor writes the first CPU. -/
theorem not_every_inside (hcpu : 0 < S.cpuNum) (lordCpu : Int) (lordPid : UInt32) (ops : List (Op ι)) :
    ¬ T.Every Lord.Inside lordCpu lordPid ops := by
  intro hinside
  have hfirst : Access.ofCpu 0 ∈ Lord.newAccesses S.cpuNum :=
    List.mem_map_of_mem (List.mem_range.mpr hcpu)
  have hreserved := (T.every_reserved lordCpu lordPid ops).new _ hfirst
  exact (hreserved.cpuStates 0 rfl).2 (hinside.new _ hfirst)

include T in
/-- With a cell of the area for every CPU no call of any run stops for a subscript. -/
theorem perform_ne_outOfRange (hcpu : S.cpuNum ≤ shootAreaSize) {lordCpu : Int} {lordPid : UInt32} {ops : List (Op ι)}
    (hrun : Runs (S.Step fun _ _ => True) (Lord.new S.cpuNum lordCpu lordPid) ops l) (op : Op ι) :
    S.perform op l ≠ .error .outOfRange := by
  have hranged := T.by_shots.ranged hrun
  intro herror
  obtain ⟨a, ha, hnot⟩ := (T.perform_checks op l).mp herror
  apply hnot
  apply (T.accesses_below hranged op a ha).mono
  · rw [hranged.capacity]
  · rw [hranged.area]
    exact hcpu

end Subscripts

end Scheduler

/-! ### The lords -/

def fifoSubscripts (cpuNum : Nat) : (fifo cpuNum).Subscripts where
  assignAccesses _ := FifoLord.assignAccesses (List.range cpuNum)
  checks _ l := FifoLord.assignLoop_checks _ l .empty
  below _ l a ha := Lord.below_ofCpu (fun _ => List.mem_range.mp) a (FifoLord.assignAccesses_subset _ l ha)
  by_shots := FifoLord.assigns_by_shots cpuNum

def shinjukuSubscripts (cpuNum : Nat) : (shinjuku cpuNum).Subscripts where
  assignAccesses := ShinjukuLord.assignAccesses cpuNum
  checks := ShinjukuLord.assign_checks cpuNum
  below := ShinjukuLord.assignAccesses_below
  by_shots := ShinjukuLord.assigns_by_shots cpuNum

/-- **In no run of either lord is every subscript inside its container**, since none of `cpu_states_` is: the vector has reserved cells and no elements. The subscripts are CPUs of the machine throughout. -/
theorem subscripts_outside {cpuNum : Nat} (hcpu : 0 < cpuNum) (lordCpu : Int) (lordPid : UInt32) :
    (∀ ops, ¬ (fifoSubscripts cpuNum).Every Lord.Inside lordCpu lordPid ops ∧
      (fifoSubscripts cpuNum).Every (Lord.Reserved cpuNum) lordCpu lordPid ops) ∧
    ∀ ops, ¬ (shinjukuSubscripts cpuNum).Every Lord.Inside lordCpu lordPid ops ∧
      (shinjukuSubscripts cpuNum).Every (Lord.Reserved cpuNum) lordCpu lordPid ops := by
  constructor
  · intro ops
    exact ⟨(fifoSubscripts cpuNum).not_every_inside hcpu lordCpu lordPid ops,
      (fifoSubscripts cpuNum).every_reserved lordCpu lordPid ops⟩
  · intro ops
    exact ⟨(shinjukuSubscripts cpuNum).not_every_inside hcpu lordCpu lordPid ops,
      (shinjukuSubscripts cpuNum).every_reserved lordCpu lordPid ops⟩

/-- A message and a round, in either lord: the CPU that the round uses is reserved, but not every subscript is inside. -/
theorem subscripts_outside_two :
    (¬ (fifoSubscripts 2).Every Lord.Inside 0 1 [.msg ⟨10, 3, 7⟩, .schedule ⟨0, ∅⟩] ∧
      ∃ l, Runs ((fifo 2).Step fun _ _ => True) (Lord.new 2 0 1) [.msg ⟨10, 3, 7⟩] l ∧
        .cpuStates 1 ∈ (fifoSubscripts 2).accesses (.schedule ⟨0, ∅⟩) l ∧ Lord.Reserved 2 l (.cpuStates 1)) ∧
    ¬ (shinjukuSubscripts 4).Every Lord.Inside 0 1 [.msg ⟨10, 3, 7⟩, .schedule ⟨1000, .init, ⟨0, ∅⟩⟩] ∧
      ∃ l, Runs ((shinjuku 4).Step fun _ _ => True) (Lord.new 4 0 1) [.msg ⟨10, 3, 7⟩] l ∧
        .cpuStates 3 ∈ (shinjukuSubscripts 4).accesses (.schedule ⟨1000, .init, ⟨0, ∅⟩⟩) l ∧
        Lord.Reserved 4 l (.cpuStates 3) := by
  have hfifo : Runs ((fifo 2).Step fun _ _ => True) (Lord.new 2 0 1) [.msg ⟨10, 3, 7⟩] _ := .snoc .nil ⟨trivial, rfl⟩
  have hshinjuku : Runs ((shinjuku 4).Step fun _ _ => True) (Lord.new 4 0 1) [.msg ⟨10, 3, 7⟩] _ :=
    .snoc .nil ⟨trivial, rfl⟩
  obtain ⟨houtside, hreserved⟩ := (subscripts_outside Nat.two_pos 0 1).1 [.msg ⟨10, 3, 7⟩, .schedule ⟨0, ∅⟩]
  obtain ⟨houtside', hreserved'⟩ :=
    (subscripts_outside (by decide : 0 < 4) 0 1).2 [.msg ⟨10, 3, 7⟩, .schedule ⟨1000, .init, ⟨0, ∅⟩⟩]
  exact ⟨⟨houtside, _, hfifo, by decide, hreserved.calls _ _ _ List.prefix_rfl hfifo _ (by decide)⟩,
    houtside', _, hshinjuku, by decide, hreserved'.calls _ _ _ List.prefix_rfl hshinjuku _ (by decide)⟩

/-- The constructor writes `cpu_states_[0]`, and the first round uses `cpu_states_[1]`, where the vector has no element. -/
theorem first_record_outside :
    (.cpuStates 0 ∈ Lord.newAccesses 2 ∧ ¬ (Lord.new 2 0 1 : FifoLord).Inside (.cpuStates 0) ∧
      ¬ (Lord.new 2 0 1 : ShinjukuLord).Inside (.cpuStates 0)) ∧
    (∃ l, Runs ((fifo 2).Step fun _ _ => True) (Lord.new 2 0 1) [.msg ⟨10, 3, 7⟩] l ∧
      .cpuStates 1 ∈ (fifoSubscripts 2).accesses (.schedule ⟨0, ∅⟩) l ∧ ¬ l.Inside (.cpuStates 1)) ∧
    ¬ (fifoSubscripts 2).Every Lord.Inside 0 1 [.msg ⟨10, 3, 7⟩, .schedule ⟨0, ∅⟩] ∧
    ¬ (shinjukuSubscripts 2).Every Lord.Inside 0 1 [.msg ⟨10, 3, 7⟩] := by
  have hnew : (Lord.new 2 0 1 : FifoLord).handle ⟨10, 3, 7⟩ = .ok _ := rfl
  refine ⟨by decide, ⟨_, .snoc .nil ⟨trivial, hnew⟩, by decide, by decide⟩, ?_, ?_⟩
  · intro hinside
    exact absurd (hinside.new (.cpuStates 0) (by decide)) (by decide)
  · intro hinside
    exact absurd (hinside.new (.cpuStates 0) (by decide)) (by decide)

end CosUserspace
