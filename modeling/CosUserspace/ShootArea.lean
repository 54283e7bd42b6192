import CosUserspace.Kernel
import Mathlib.Data.List.Basic
import Mathlib.Data.List.Nodup
import Mathlib.Data.List.Range

/-!
# The shoot area

`lib/shoot_area.h`: a round is committed by writing one argument per assigned CPU, the kernel raises `_SA_ERROR` for the CPUs whose shot failed, and `check_shoot_state` collects and clears these flags. The loops stop at an access outside the area.
-/

namespace CosUserspace

namespace CosShootArea

/-- The area as `init_shoot` maps it. -/
def init : CosShootArea := ⟨0, .array shootAreaSize ⟨0, saRight⟩⟩

/-- The loop of `commit_shoot_message`. -/
def writeArgs : List (Nat × CosShootArg) → Buffer CosShootArg → Option (Buffer CosShootArg)
  | [], area => some area
  | (cpu, arg) :: args, area =>
    match area.modify cpu fun _ => arg with
    | none => none
    | some area => writeArgs args area

/-- `ShootArea::commit_shoot_message`; the sequence number arrives as a `u_int16_t`. -/
def commitShootMessage (args : List (Nat × CosShootArg)) (seq : UInt16) (sa : CosShootArea) :
    Option CosShootArea :=
  (writeArgs args sa.area).map fun area => { seq := seq.toUInt64, area }

/-- What `shoot_task` does to the area: it flags CPUs of the mask. -/
def shootTask (mask : CpuSet) (flags : Finset Nat) (sa : CosShootArea) : CosShootArea :=
  { sa with area.cell := fun cpu =>
      if cpu ∈ mask ∧ cpu ∈ flags then { sa.area.cell cpu with info := saError } else sa.area.cell cpu }

/-- The loop of `check_shoot_state`. -/
def checkCpus : List Nat → Buffer CosShootArg → Option (List (Nat × Int32) × Buffer CosShootArg)
  | [], area => some ([], area)
  | cpu :: cpus, area =>
    match area.read cpu, area.modify cpu fun arg => { arg with info := saRight } with
    | some arg, some area =>
      (checkCpus cpus area).map fun (fail, area) =>
        (if arg.info ≠ saRight then (cpu, arg.pid.toInt32) :: fail else fail, area)
    | _, _ => none

/-- `ShootArea::check_shoot_state` -/
def checkShootState (cpuNums : Nat) (sa : CosShootArea) : Option (List (Nat × Int32) × CosShootArea) :=
  (checkCpus (List.range cpuNums) sa.area).map fun (fail, area) => (fail, { sa with area })

/-- No flag is up below `n`, and the area has all its cells. -/
structure Clear (sa : CosShootArea) (n : Nat) : Prop where
  capacity : sa.area.capacity = shootAreaSize
  info : ∀ cpu < n, (sa.area.cell cpu).info = saRight

theorem Clear.init (n : Nat) : Clear init n := ⟨rfl, fun _ _ => rfl⟩

/-! ### Commit -/

/-- The argument an assigned CPU gets is the last one listed for it. -/
def argFor (args : List (Nat × CosShootArg)) (cpu : Nat) (old : CosShootArg) : CosShootArg :=
  args.foldl (fun arg entry => if entry.1 = cpu then entry.2 else arg) old

theorem writeArgs_eq {args : List (Nat × CosShootArg)} {area : Buffer CosShootArg}
    (hbound : ∀ entry ∈ args, entry.1 < area.capacity) :
    writeArgs args area = some { area with cell := fun cpu => argFor args cpu (area.cell cpu) } := by
  induction args generalizing area with
  | nil => rfl
  | cons entry args ih =>
    obtain ⟨cpu, arg⟩ := entry
    have hcpu : cpu < area.capacity := hbound _ List.mem_cons_self
    simp only [writeArgs, Buffer.modify_natCast _ hcpu]
    have hrest : ∀ entry ∈ args, entry.1 < (area.set cpu arg).capacity := fun entry hentry =>
      hbound entry (List.mem_cons_of_mem _ hentry)
    rw [ih hrest]
    simp only [argFor, List.foldl_cons, Buffer.set, Function.update_apply, eq_comm]

theorem argFor_mem (args : List (Nat × CosShootArg)) (cpu : Nat) (old : CosShootArg) :
    (cpu, argFor args cpu old) ∈ args ∨ (∀ entry ∈ args, entry.1 ≠ cpu) ∧ argFor args cpu old = old := by
  induction args generalizing old with
  | nil => exact .inr ⟨by simp, rfl⟩
  | cons entry args ih =>
    rw [argFor, List.foldl_cons]
    by_cases hcpu : entry.1 = cpu
    · rw [if_pos hcpu]
      rcases ih entry.2 with hmem | ⟨_, hsame⟩
      · exact .inl (List.mem_cons_of_mem _ hmem)
      · refine .inl (List.mem_cons.mpr (.inl ?_))
        rw [argFor] at hsame
        rw [hsame, ← hcpu]
    · rw [if_neg hcpu]
      rcases ih old with hmem | ⟨hnone, hsame⟩
      · exact .inl (List.mem_cons_of_mem _ hmem)
      · refine .inr ⟨?_, hsame⟩
        simpa [hcpu] using hnone

theorem argFor_eq {args : List (Nat × CosShootArg)} {cpu : Nat} {arg old : CosShootArg}
    (hnodup : (args.map Prod.fst).Nodup) (hmem : (cpu, arg) ∈ args) : argFor args cpu old = arg := by
  rcases argFor_mem args cpu old with hlast | ⟨hnone, _⟩
  · exact congrArg Prod.snd (List.inj_on_of_nodup_map hnodup hlast hmem rfl)
  · exact absurd rfl (hnone _ hmem)

theorem writeArgs_bound {args : List (Nat × CosShootArg)} {area area' : Buffer CosShootArg}
    (hsome : writeArgs args area = some area') : ∀ entry ∈ args, entry.1 < area.capacity := by
  induction args generalizing area with
  | nil => simp
  | cons entry args ih =>
    rw [writeArgs] at hsome
    split at hsome
    · cases hsome
    · rename_i area₁ hwrite
      have hcpu : entry.1 < area.capacity := Buffer.lt_of_modify hwrite
      rw [Buffer.modify_natCast _ hcpu, Option.some.injEq] at hwrite
      subst hwrite
      exact List.forall_mem_cons.mpr ⟨hcpu, @ih (area.set entry.1 entry.2) hsome⟩

/-! ### Check -/

theorem checkCpus_eq {cpus : List Nat} {area : Buffer CosShootArg} (hnodup : cpus.Nodup)
    (hbound : ∀ cpu ∈ cpus, cpu < area.capacity) :
    checkCpus cpus area = some
      (cpus.filterMap fun cpu =>
        if (area.cell cpu).info ≠ saRight then some (cpu, (area.cell cpu).pid.toInt32) else none,
      { area with cell := fun cpu =>
          if cpu ∈ cpus then { area.cell cpu with info := saRight } else area.cell cpu }) := by
  induction cpus generalizing area with
  | nil => simp [checkCpus]
  | cons cpu cpus ih =>
    have hcpu : cpu < area.capacity := hbound _ List.mem_cons_self
    obtain ⟨hnew, hrest⟩ := List.nodup_cons.mp hnodup
    simp only [checkCpus, Buffer.read_natCast hcpu, Buffer.modify_natCast _ hcpu]
    have hrestBound : ∀ c ∈ cpus, c < (area.set cpu { area.cell cpu with info := saRight }).capacity :=
      fun c hc => hbound c (List.mem_cons_of_mem _ hc)
    rw [ih hrest hrestBound]
    simp only [Option.map_some, Option.some.injEq, Prod.mk.injEq]
    constructor
    · -- the flag cleared here is not one that the rest of the loop reads
      have hcells : ∀ c ∈ cpus, (area.set cpu { area.cell cpu with info := saRight }).cell c = area.cell c :=
        fun c hc => Buffer.set_cell_of_ne _ (fun heq => hnew (heq ▸ hc))
      rw [List.filterMap_cons]
      rw [List.filterMap_congr (g := fun c => if (area.cell c).info ≠ saRight then
        some (c, (area.cell c).pid.toInt32) else none) fun c hc => by rw [hcells c hc]]
      split <;> simp_all
    · refine Buffer.ext rfl rfl fun c => ?_
      simp only [Buffer.set_cell, List.mem_cons]
      by_cases hc : c = cpu
      · subst hc
        simp [hnew]
      · simp [hc]

theorem checkCpus_bound {cpus : List Nat} {area : Buffer CosShootArg}
    (hsome : (checkCpus cpus area).isSome) : ∀ cpu ∈ cpus, cpu < area.capacity := by
  induction cpus generalizing area with
  | nil => simp
  | cons cpu cpus ih =>
    rw [checkCpus] at hsome
    split at hsome
    · rename_i hread hwrite
      have hcpu : cpu < area.capacity := Buffer.lt_of_modify hwrite
      rw [Buffer.modify_natCast _ hcpu, Option.some.injEq] at hwrite
      subst hwrite
      rw [Option.isSome_map] at hsome
      exact List.forall_mem_cons.mpr ⟨hcpu, @ih (area.set cpu _) hsome⟩
    · cases hsome

theorem checkShootState_bound {n : Nat} {sa : CosShootArea} (hcapacity : sa.area.capacity = shootAreaSize)
    (hsome : (sa.checkShootState n).isSome) : n ≤ shootAreaSize := by
  cases n with
  | zero => exact Nat.zero_le _
  | succ n =>
    rw [checkShootState, Option.isSome_map] at hsome
    rw [← hcapacity]
    exact checkCpus_bound hsome n (List.mem_range.mpr (Nat.lt_succ_self n))

/-- The flagged CPUs below `n`, with the task of each. -/
def flagged (n : Nat) (sa : CosShootArea) : List (Nat × Int32) :=
  (List.range n).filterMap fun cpu =>
    if (sa.area.cell cpu).info ≠ saRight then some (cpu, (sa.area.cell cpu).pid.toInt32) else none

/-- `check_shoot_state` returns the flagged CPUs and takes all flags down. -/
theorem checkShootState_eq {n : Nat} {sa : CosShootArea} (hcapacity : sa.area.capacity = shootAreaSize)
    (hn : n ≤ shootAreaSize) :
    ∃ sa', sa'.Clear n ∧ sa'.seq = sa.seq ∧ sa.checkShootState n = some (sa.flagged n, sa') := by
  have hrange : ∀ cpu ∈ List.range n, cpu < sa.area.capacity := fun cpu hmem => by
    rw [hcapacity]
    exact Nat.lt_of_lt_of_le (List.mem_range.mp hmem) hn
  rw [checkShootState, checkCpus_eq List.nodup_range hrange, Option.map_some]
  refine ⟨_, ?_, ?_, rfl⟩
  · exact ⟨hcapacity, fun cpu hcpu => by simp [hcpu]⟩
  · rfl

/-- The tasks stay in the area; only flags are taken down. -/
theorem checkShootState_pid {n : Nat} {sa sa' : CosShootArea} {fail : List (Nat × Int32)}
    (hcapacity : sa.area.capacity = shootAreaSize) (hn : n ≤ shootAreaSize)
    (hcheck : sa.checkShootState n = some (fail, sa')) (cpu : Nat) :
    (sa'.area.cell cpu).pid = (sa.area.cell cpu).pid := by
  have hrange : ∀ cpu ∈ List.range n, cpu < sa.area.capacity := fun cpu hmem => by
    rw [hcapacity]
    exact Nat.lt_of_lt_of_le (List.mem_range.mp hmem) hn
  rw [checkShootState, checkCpus_eq List.nodup_range hrange, Option.map_some] at hcheck
  obtain ⟨-, rfl⟩ := Prod.mk.inj (Option.some.inj hcheck)
  dsimp only
  split <;> rfl

end CosShootArea

end CosUserspace
