import CosUserspace.Lord.Frame
import CosUserspace.Lord.Schedule

/-!
# FifoLord

`schedule` walks over the CPUs and shoots the head of the run queue onto each one that is not marked COS; nothing is preempted. The record saved for the rollback is read after the CPU is marked, so a shot that fails leaves its CPU marked.
-/

namespace CosUserspace

namespace Fifo

inductive CpuState
  | idle
  | cos
  | nocos
  deriving DecidableEq, Repr

instance : CpuRecord CpuState where
  idle := .idle
  takenByCfs := fun _ => .nocos
  isCos := fun state => state = .cos

end Fifo

/-- `FifoTask` has no `last_shoot_time`. -/
abbrev FifoLord := Lord Unit Fifo.CpuState

namespace FifoLord

/-- The loop `for (int cpu = 0; cpu < cpu_num; cpu ++)` of `schedule`, on the CPUs still ahead. -/
def assignLoop : List Nat → FifoLord → Round Fifo.CpuState → Except Stop (FifoLord × Round Fifo.CpuState)
  | [], l, r => .ok (l, r)
  | cpu :: cpus, l, r =>
    if (cpu : Int) = l.lordCpu then assignLoop cpus l r
    else
      match l.cpuStates.read cpu with
      | none => .error .outOfRange
      | some .cos => assignLoop cpus l r
      | some _ =>
        let tid : Int32 := l.rq.peek.toInt32
        if tid = 0 then .ok (l, r)
        else
          match l.aliveTasks tid.toUInt32 with
          | none => .error .pickedBeforeNew
          | some next =>
            match (l.setTask tid.toUInt32 (next.shootOn () cpu)).modifyCpu cpu fun _ => .cos with
            | .error stop => .error stop
            | .ok l =>
              match l.cpuStates.read cpu with
              | none => .error .outOfRange
              | some old =>
                assignLoop cpus { l with rq := l.rq.dequeue } (r.push cpu next.pid.toUInt32 old)

end FifoLord

/-- `FifoLord::schedule`; it reads nothing from outside but the kernel's answer. -/
def fifo (cpuNum : Nat) : Scheduler Unit Fifo.CpuState ShootAnswer where
  cpuNum := cpuNum
  assign := fun _ l => FifoLord.assignLoop (List.range cpuNum) l .empty
  answer := id

namespace FifoLord

/-- The CPUs a FIFO lord shoots onto. -/
def Avail (cpuNum : Nat) (l : FifoLord) (cpu : Nat) : Prop :=
  cpu < cpuNum ∧ (cpu : Int) ≠ l.lordCpu ∧ l.cpuStates.cell cpu ≠ .cos

/-- What `FifoLord` places: the CPU is marked COS, and COS is what is saved of it. -/
abbrev Placed (cpuNum : Nat) (l l' : FifoLord) (r : Round Fifo.CpuState) : Prop :=
  Assigned () (fun _ => Fifo.CpuState.cos) (fun _ => Fifo.CpuState.cos) (l.Avail cpuNum) l l' r

theorem peek_toInt32_ne {rq : RunQueue} (hpeek : rq.peek.toInt32 ≠ 0) :
    rq = rq.peek :: rq.dequeue ∧ rq.peek ≠ 0 := by
  have hzero : rq.peek ≠ 0 := fun heq => hpeek (by rw [heq]; rfl)
  exact ⟨rq.peek_cases.resolve_left hzero, hzero⟩

variable {cpuNum : Nat} {l l₁ : FifoLord} {r : Round Fifo.CpuState}

/-- On the CPUs ahead the loop places tasks, and it never stops with an error. -/
theorem assignLoop_placed (hsound : l.Sound cpuNum) {cpus : List Nat}
    (hnodup : cpus.Nodup) (hlt : ∀ cpu ∈ cpus, cpu < cpuNum) (hplaced : Placed cpuNum l l₁ r)
    (hahead : ∀ cpu ∈ cpus, cpu ∉ r.pairs.map Prod.fst) :
    ∃ l₂ r₂, assignLoop cpus l₁ r = .ok (l₂, r₂) ∧ Placed cpuNum l l₂ r₂ := by
  induction cpus generalizing l₁ r with
  | nil => exact ⟨l₁, r, rfl, hplaced⟩
  | cons cpu cpus ih =>
    obtain ⟨hnew, hrest⟩ := List.nodup_cons.mp hnodup
    have hltRest : ∀ c ∈ cpus, c < cpuNum := fun c hc => hlt c (List.mem_cons_of_mem _ hc)
    have haheadRest : ∀ c ∈ cpus, c ∉ r.pairs.map Prod.fst := fun c hc => hahead c (List.mem_cons_of_mem _ hc)
    have hcpuNew : cpu ∉ r.pairs.map Prod.fst := hahead cpu List.mem_cons_self
    have hcpuLt : cpu < cpuNum := hlt cpu List.mem_cons_self
    have hbound : cpu < l₁.cpuStates.capacity := by
      rw [hplaced.capacity_eq, hsound.capacity]
      exact hcpuLt
    rw [assignLoop]
    by_cases hlord : (cpu : Int) = l₁.lordCpu
    · rw [if_pos hlord]
      exact ih hrest hltRest hplaced haheadRest
    rw [if_neg hlord, Buffer.read_natCast hbound]
    cases hcell : l₁.cpuStates.cell cpu with
    | cos => exact ih hrest hltRest hplaced haheadRest
    | idle | nocos =>
      dsimp only
      by_cases hpeek : l₁.rq.peek.toInt32 = 0
      · rw [if_pos hpeek]
        exact ⟨l₁, r, rfl, hplaced⟩
      obtain ⟨hqueue, hzero⟩ := peek_toInt32_ne hpeek
      have hmem : l₁.rq.peek ∈ l₁.rq := by
        rw [hqueue]
        exact List.mem_cons_self
      obtain ⟨-, task, -, -, halive, hkey⟩ := hplaced.waiting hsound hmem
      have havail : l.Avail cpuNum cpu := by
        refine ⟨hcpuLt, by rwa [← hplaced.lordCpu_eq], ?_⟩
        rw [← hplaced.untouched cpu hcpuNew, hcell]
        decide
      have hnext := hplaced.place hsound (.of_eq hqueue) halive hcpuNew havail hzero
      rw [if_neg hpeek, UInt32.toUInt32_toInt32, halive]
      simp only [Lord.modifyCpu, Lord.setTask, Buffer.modify_natCast _ hbound]
      rw [Buffer.read_natCast (by simpa using hbound)]
      simp only [Buffer.set_cell_self, hkey]
      apply ih hrest hltRest hnext
      intro c hc
      rw [Round.mem_cpus_push, not_or]
      exact ⟨haheadRest c hc, fun heq => hnew (heq ▸ hc)⟩

/-- Whatever the state of the tables, the loop changes them by shots onto the CPUs ahead. -/
theorem assignLoop_kept {P : FifoLord → Prop} (hP : Lord.KeptByShots cpuNum P) {cpus : List Nat} {l l' : FifoLord}
    {r r' : Round Fifo.CpuState} (hlt : ∀ cpu ∈ cpus, cpu < cpuNum) (h : P l) (hr : r.Ranged cpuNum)
    (hok : assignLoop cpus l r = .ok (l', r')) : P l' ∧ r'.Ranged cpuNum := by
  induction cpus generalizing l r with
  | nil =>
    obtain ⟨rfl, rfl⟩ := Prod.mk.inj (Except.ok.inj hok)
    exact ⟨h, hr⟩
  | cons cpu cpus ih =>
    obtain ⟨hcpu, hlt⟩ := List.forall_mem_cons.mp hlt
    rw [assignLoop] at hok
    split at hok
    · exact ih hlt h hr hok
    split at hok
    · cases hok
    · exact ih hlt h hr hok
    dsimp only at hok
    split at hok
    · obtain ⟨rfl, rfl⟩ := Prod.mk.inj (Except.ok.inj hok)
      exact ⟨h, hr⟩
    split at hok
    · cases hok
    split at hok
    · cases hok
    rename_i hmodify
    split at hok
    · cases hok
    · exact ih hlt (hP.rq _ (hP.modifyCpu hmodify (hP.shootOn hcpu h))) (hr.push hcpu ..) hok

theorem assigns_by_shots (cpuNum : Nat) : (fifo cpuNum).AssignsByShots := fun _ hP _ _ _ _ h hok =>
  assignLoop_kept hP (fun _ => List.mem_range.mp) h .empty hok

theorem assign_placed (hsound : l.Sound cpuNum) (answer : ShootAnswer) :
    ∃ l₁ r, (fifo cpuNum).assign answer l = .ok (l₁, r) ∧ Placed cpuNum l l₁ r :=
  assignLoop_placed hsound List.nodup_range (fun _ => List.mem_range.mp) .start (by simp)

end FifoLord

def fifoDiscipline (cpuNum : Nat) : (fifo cpuNum).Discipline where
  now := fun _ => ()
  mark := fun _ => .cos
  saved := fun _ _ => .cos
  avail := fun _ => FifoLord.Avail cpuNum
  avail_lt := fun _ _ _ h => h.1
  assigned := by
    intro answer l l₁ r hsound hassign
    obtain ⟨l₂, r₂, heq, hplaced⟩ := FifoLord.assign_placed hsound answer
    obtain ⟨rfl, rfl⟩ := Prod.mk.inj (Except.ok.inj (hassign.symm.trans heq))
    exact hplaced

end CosUserspace
