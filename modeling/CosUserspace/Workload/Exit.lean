import CosUserspace.Epistle.Clients
import CosUserspace.Workload.Shutdown

/-!
# How soon a worker exits

Between two tests of `exit_all` a worker makes a bounded number of accesses, whatever the others do in between: its calls on the epistle are wait-free while a slot is empty, and a batch is no longer than the test of `num_requests` lets through. `Budget` says how many accesses it can have made before each of them. A worker that has not exited has therefore made fewer than a round of them since `exit_all` was set.
-/

namespace CosUserspace

namespace Workload

/-- The most accesses of a call on the epistle. -/
def callAccesses (capacity : Nat) : Nat := 3 * capacity + 1

/-- The most accesses of a worker between two tests of `exit_all`: three calls on the epistle, six accesses to each request and four more. -/
def roundAccesses (batch capacity : Nat) : Nat := 3 * callAccesses capacity + 6 * batch + 4

variable {capacity : Nat} [NeZero capacity] {S : Setup}

open Epistle.Clients (Bounded addMove_bounded getMove_bounded addMove_keeps)

/-- How many accesses a worker can have made since it has tested `exit_all`. -/
def Budget (batch : Nat) (key : Int32) (occ : Fin capacity → Option Int32) (spent : Nat) : WorkerPc capacity → Prop
  | .announce => spent = 0
  | .register pc => ∃ count, Bounded occ count (.adding key epistleThreadIdle pc) ∧ spent ≤ count + 1
  | .poll pc => ∃ count, Bounded occ count (.getting key pc : Epistle.Client UInt32 capacity) ∧ spent ≤ count
  | .confirm pc => ∃ count, Bounded occ count (.getting key pc : Epistle.Client UInt32 capacity) ∧
      spent ≤ callAccesses capacity + count
  | .lookup => spent ≤ 2 * callAccesses capacity
  | .load => spent ≤ 2 * callAccesses capacity + 1
  | .measure num => num ≤ batch ∧ spent ≤ 2 * callAccesses capacity + 2
  | .start num i => (i < num ∧ num ≤ batch) ∧ spent ≤ 2 * callAccesses capacity + 6 * i + 3
  | .stampStart num i _ => (i < num ∧ num ≤ batch) ∧ spent ≤ 2 * callAccesses capacity + 6 * i + 4
  | .handle num i => (i < num ∧ num ≤ batch) ∧ spent ≤ 2 * callAccesses capacity + 6 * i + 5
  | .finish num i => (i < num ∧ num ≤ batch) ∧ spent ≤ 2 * callAccesses capacity + 6 * i + 6
  | .stampFinish num i _ => (i < num ∧ num ≤ batch) ∧ spent ≤ 2 * callAccesses capacity + 6 * i + 7
  | .append num i => (i < num ∧ num ≤ batch) ∧ spent ≤ 2 * callAccesses capacity + 6 * i + 8
  | .release => spent ≤ 2 * callAccesses capacity + 6 * batch + 3
  | .retire pc => ∃ count, Bounded occ count (.adding key epistleThreadIdle pc) ∧
      spent ≤ 2 * callAccesses capacity + 6 * batch + 4 + count
  | .failed => True

section Worker

variable {batch : Nat} {key : Int32} {e e' : Epistle UInt32 capacity} {occ occ' : Fin capacity → Option Int32}
  {spent : Nat} {now : UInt64} {d : Desk capacity} {slot : Fin capacity}

theorem Budget.mono {pc : WorkerPc capacity} (h : Budget batch key occ spent pc)
    (hkeeps : ∀ idx k, occ idx = some k → occ' idx = some k) : Budget batch key occ' spent pc := by
  cases pc with
  | register pc | poll pc | confirm pc | retire pc =>
    obtain ⟨count, hbounded, hspent⟩ := h
    exact ⟨count, hbounded.mono hkeeps, hspent⟩
  | _ => exact h

/-- The head of the loop over a batch, with `i` requests done. -/
theorem Budget.next {num i : Nat} (hi : i ≤ num) (hnum : num ≤ batch)
    (hspent : spent ≤ 2 * callAccesses capacity + 6 * i + 3) : Budget batch key occ spent (.next num i) := by
  unfold WorkerPc.next
  split
  · rename_i hmore
    exact ⟨⟨hmore, hnum⟩, hspent⟩
  · show spent ≤ 2 * callAccesses capacity + 6 * batch + 3
    omega

/-- An access to a request of the batch. -/
theorem Budget.withRequest {i : Nat} {f : Request → Desk capacity} (hf : ∀ r, Budget batch key occ spent (f r).pc) :
    Budget batch key occ spent (d.withRequest i f).pc :=
  Desk.withRequest_pc (P := Budget batch key occ spent) trivial hf

/-- A call of `add` goes on or is over. -/
theorem adding_cases (hkey : key ≠ 0) {value : UInt32} {pc pc' : Epistle.AddPc capacity} {count : Nat}
    (hbounded : Bounded e.occ count (.adding key value pc))
    (hmove : Epistle.addMove key value e pc = (pc', e')) (hfree : e'.occ slot = none) :
    (pc' = .returned ∧ count + 1 ≤ callAccesses capacity) ∨
      (pc' ≠ .returned ∧ Bounded e'.occ (count + 1) (.adding key value pc')) := by
  refine (addMove_bounded hkey value hbounded hmove).imp_left ?_
  rintro ⟨rfl, idx, hwalks⟩
  have hcount := hwalks.count_le hfree
  refine ⟨rfl, ?_⟩
  unfold callAccesses
  omega

theorem getting_cases {pc : Epistle.GetPc capacity} {count : Nat}
    (hbounded : Bounded e.occ count (.getting key pc : Epistle.Client UInt32 capacity)) (hfree : e.occ slot = none) :
    (∃ pc', Epistle.getMove key e pc = .inl pc' ∧
      Bounded e.occ (count + 1) (.getting key pc' : Epistle.Client UInt32 capacity)) ∨
      ∃ hint, Epistle.getMove key e pc = .inr hint ∧ count + 1 ≤ callAccesses capacity := by
  refine (getMove_bounded hbounded).imp_right ?_
  rintro ⟨hint, idx, hmove, hwalks⟩
  have hcount := hwalks.count_le hfree
  refine ⟨hint, hmove, ?_⟩
  unfold callAccesses
  omega

theorem Budget.le {pc : WorkerPc capacity} (h : Budget batch key occ spent pc) (hfree : occ slot = none)
    (hpc : pc ≠ .failed) : spent ≤ roundAccesses batch capacity := by
  have hcount : ∀ (client : Epistle.Client UInt32 capacity) count, Bounded occ count client →
      count ≤ callAccesses capacity := fun _ _ hbounded => (hbounded.count_le hfree).1
  unfold roundAccesses
  cases pc with
  | announce =>
    have hzero : spent = 0 := h
    omega
  | register pc | poll pc | confirm pc | retire pc =>
    obtain ⟨count, hbounded, hspent⟩ := h
    have hle := hcount _ _ hbounded
    omega
  | lookup | load | release =>
    have hspent : spent ≤ 2 * callAccesses capacity + 6 * batch + 3 := Nat.le_trans h (by omega)
    omega
  | measure num =>
    obtain ⟨-, hspent⟩ := h
    omega
  | start num i | stampStart num i _ | handle num i | finish num i | stampFinish num i _ | append num i =>
    obtain ⟨⟨hi, hnum⟩, hspent⟩ := h
    omega
  | failed => exact absurd rfl hpc

/-- What an access of the worker leaves of its budget. -/
def Spends (batch : Nat) (key : Int32) (spent : Nat) (looped : Bool) (next : Epistle UInt32 capacity × Desk capacity) :
    Prop :=
  if looped then spent ≤ roundAccesses batch capacity else Budget batch key next.1.occ spent next.2.pc

/-- The worker does not go back to the head of its loop. -/
theorem spends_of {next : Epistle UInt32 capacity × Desk capacity} (hloops : d.loops key e = false)
    (hbudget : Budget batch key next.1.occ spent next.2.pc) : Spends batch key spent (d.loops key e) next := by
  rw [Spends, hloops]
  exact hbudget

/-- An access of a call of `add`, which is the last thing the worker does in its loop. -/
theorem spends_adding (hkey : key ≠ 0) (before : Nat) (wpc : Epistle.AddPc capacity → WorkerPc capacity)
    {pc : Epistle.AddPc capacity} {count : Nat} {next : Epistle UInt32 capacity × Desk capacity}
    (hloops : d.loops key e = decide ((Epistle.addMove key epistleThreadIdle e pc).1 = .returned))
    (hnext : next = ((Epistle.addMove key epistleThreadIdle e pc).2,
      d.goto (if (Epistle.addMove key epistleThreadIdle e pc).1 = .returned then .poll (.test (Epistle.hash key))
        else wpc (Epistle.addMove key epistleThreadIdle e pc).1)))
    (hbounded : Bounded e.occ count (.adding key epistleThreadIdle pc)) (hspent : spent ≤ before + count)
    (hbefore : before ≤ 2 * callAccesses capacity + 6 * batch + 4)
    (hbudget : ∀ occ pc' count, Bounded occ count (.adding key epistleThreadIdle pc') → spent + 1 ≤ before + count →
      Budget batch key occ (spent + 1) (wpc pc'))
    (hfree : next.1.occ slot = none) : Spends batch key (spent + 1) (d.loops key e) next := by
  subst hnext
  rcases hmove : Epistle.addMove key epistleThreadIdle e pc with ⟨pc', e'⟩
  rw [hmove] at hloops hfree
  rcases adding_cases hkey hbounded hmove hfree with ⟨hdone, hcount⟩ | ⟨hnot, hbounded'⟩
  · rw [Spends, hloops, if_pos (decide_eq_true hdone)]
    unfold roundAccesses
    omega
  · apply spends_of (hloops.trans (decide_eq_false hnot))
    rw [if_neg hnot]
    exact hbudget e'.occ pc' (count + 1) hbounded' (by omega)

theorem move_register {pc : Epistle.AddPc capacity} (hpc : d.pc = .register pc) :
    d.move batch key now e = ((Epistle.addMove key epistleThreadIdle e pc).2,
      d.goto (if (Epistle.addMove key epistleThreadIdle e pc).1 = .returned then .poll (.test (Epistle.hash key))
        else .register (Epistle.addMove key epistleThreadIdle e pc).1)) := by
  rcases hmove : Epistle.addMove key epistleThreadIdle e pc with ⟨pc', e'⟩
  cases pc' <;> simp [Desk.move, hpc, hmove]

theorem move_retire {pc : Epistle.AddPc capacity} (hpc : d.pc = .retire pc) :
    d.move batch key now e = ((Epistle.addMove key epistleThreadIdle e pc).2,
      d.goto (if (Epistle.addMove key epistleThreadIdle e pc).1 = .returned then .poll (.test (Epistle.hash key))
        else .retire (Epistle.addMove key epistleThreadIdle e pc).1)) := by
  rcases hmove : Epistle.addMove key epistleThreadIdle e pc with ⟨pc', e'⟩
  cases pc' <;> simp [Desk.move, hpc, hmove]

/-- Every access of a worker stays within its budget. -/
theorem Budget.move (hkey : key ≠ 0) (h : Budget batch key e.occ spent d.pc)
    (hfree : (d.move batch key now e).1.occ slot = none) :
    Spends batch key (spent + 1) (d.loops key e) (d.move batch key now e) := by
  cases hpc : d.pc with
  | announce =>
    rw [hpc] at h
    have hzero : spent = 0 := h
    apply spends_of (by simp only [Desk.loops, hpc])
    rw [Desk.move, hpc]
    exact ⟨0, .start e.occ key, by omega⟩
  | register pc =>
    rw [hpc] at h
    obtain ⟨count, hbounded, hspent⟩ := h
    refine spends_adding hkey 1 .register (by simp only [Desk.loops, hpc]) (move_register hpc) hbounded (by omega)
      (by omega) ?_ hfree
    exact fun occ pc' count hbounded' hcount => ⟨count, hbounded', by omega⟩
  | retire pc =>
    rw [hpc] at h
    obtain ⟨count, hbounded, hspent⟩ := h
    refine spends_adding hkey (2 * callAccesses capacity + 6 * batch + 4) .retire (by simp only [Desk.loops, hpc])
      (move_retire hpc) hbounded hspent (Nat.le_refl _) ?_ hfree
    exact fun occ pc' count hbounded' hcount => ⟨count, hbounded', hcount⟩
  | poll get =>
    rw [hpc] at h
    obtain ⟨count, hbounded, hspent⟩ := h
    have hsame : (d.move batch key now e).1 = e := by
      rw [Desk.move, hpc]
      dsimp only
      split
      · rfl
      · split <;> rfl
    rw [hsame] at hfree
    rcases getting_cases hbounded hfree with ⟨get', hmove, hbounded'⟩ | ⟨hint, hmove, hcount⟩
    · apply spends_of (by simp [Desk.loops, hpc, hmove])
      simp only [Desk.move, hpc, hmove]
      exact ⟨count + 1, hbounded', by omega⟩
    · by_cases hhint : hint = epistleThreadIdle
      · rw [Spends, if_pos (by simp [Desk.loops, hpc, hmove, hhint])]
        unfold roundAccesses
        omega
      · apply spends_of (by simp [Desk.loops, hpc, hmove, hhint])
        simp only [Desk.move, hpc, hmove, if_neg hhint]
        exact ⟨0, .start e.occ key, by omega⟩
  | confirm get =>
    rw [hpc] at h
    obtain ⟨count, hbounded, hspent⟩ := h
    have hsame : (d.move batch key now e).1 = e := by
      rw [Desk.move, hpc]
      dsimp only
      split
      · rfl
      · split <;> rfl
    rw [hsame] at hfree
    apply spends_of (by simp only [Desk.loops, hpc])
    rcases getting_cases hbounded hfree with ⟨get', hmove, hbounded'⟩ | ⟨hint, hmove, hcount⟩
    · simp only [Desk.move, hpc, hmove]
      exact ⟨count + 1, hbounded', by omega⟩
    · simp only [Desk.move, hpc, hmove]
      split
      · show spent + 1 ≤ 2 * callAccesses capacity
        omega
      · trivial
  | lookup =>
    rw [hpc] at h
    have hspent : spent ≤ 2 * callAccesses capacity := h
    apply spends_of (by simp only [Desk.loops, hpc])
    rw [Desk.move, hpc]
    dsimp only
    split
    · show spent + 1 ≤ 2 * callAccesses capacity + 1
      omega
    · trivial
  | load =>
    rw [hpc] at h
    have hspent : spent ≤ 2 * callAccesses capacity + 1 := h
    by_cases hnum : d.numRequests = 0
    · rw [Spends, if_pos (by simp [Desk.loops, hpc, hnum])]
      unfold roundAccesses
      omega
    · apply spends_of (by simp [Desk.loops, hpc, hnum])
      simp only [Desk.move, hpc, if_neg hnum]
      split
      · rename_i hbatch
        exact ⟨hbatch, by omega⟩
      · trivial
  | measure num =>
    rw [hpc] at h
    obtain ⟨hnum, hspent⟩ := h
    apply spends_of (by simp only [Desk.loops, hpc])
    rw [Desk.move, hpc]
    dsimp only
    split
    · exact .next (Nat.zero_le num) hnum (by omega)
    · trivial
  | start num i | finish num i =>
    rw [hpc] at h
    obtain ⟨hi, hspent⟩ := h
    apply spends_of (by simp only [Desk.loops, hpc])
    rw [Desk.move, hpc]
    exact ⟨hi, by omega⟩
  | stampStart num i time | stampFinish num i time =>
    rw [hpc] at h
    obtain ⟨hi, hspent⟩ := h
    apply spends_of (by simp only [Desk.loops, hpc])
    rw [Desk.move, hpc]
    exact .withRequest fun r => ⟨hi, by omega⟩
  | handle num i =>
    rw [hpc] at h
    obtain ⟨hi, hspent⟩ := h
    apply spends_of (by simp only [Desk.loops, hpc])
    rw [Desk.move, hpc]
    exact .withRequest fun r => ⟨hi, by omega⟩
  | append num i =>
    rw [hpc] at h
    obtain ⟨⟨hi, hnum⟩, hspent⟩ := h
    apply spends_of (by simp only [Desk.loops, hpc])
    rw [Desk.move, hpc]
    exact .withRequest fun r => .next hi hnum (by omega)
  | release =>
    rw [hpc] at h
    have hspent : spent ≤ 2 * callAccesses capacity + 6 * batch + 3 := h
    apply spends_of (by simp only [Desk.loops, hpc])
    rw [Desk.move, hpc]
    exact ⟨0, .start e.occ key, by omega⟩
  | failed =>
    apply spends_of (by simp only [Desk.loops, hpc])
    simp only [Desk.move, hpc]
    trivial

/-! ### No key leaves the table -/

/-- An access of a worker changes the table as an access of `add` for its own key does, or not at all. -/
theorem Desk.move_epistle (batch : Nat) (key : Int32) (now : UInt64) (e : Epistle UInt32 capacity) (d : Desk capacity) :
    (d.move batch key now e).1 = e ∨
      ∃ value pc, (d.move batch key now e).1 = (Epistle.addMove key value e pc).2 := by
  cases hpc : d.pc with
  | register pc =>
    rw [move_register hpc]
    exact .inr ⟨_, _, rfl⟩
  | retire pc =>
    rw [move_retire hpc]
    exact .inr ⟨_, _, rfl⟩
  | announce | start | finish | stampStart | handle | stampFinish | append | release | failed =>
    left
    rw [Desk.move, hpc]
  | lookup | measure =>
    left
    rw [Desk.move, hpc]
    dsimp only
    split <;> rfl
  | load | poll get | confirm get =>
    left
    rw [Desk.move, hpc]
    dsimp only
    split
    · rfl
    · split <;> rfl

theorem Desk.move_keeps (hkey : key ≠ 0) (idx : Fin capacity) (k : Int32) (hslot : e.occ idx = some k) :
    (d.move batch key now e).1.occ idx = some k := by
  rcases Desk.move_epistle batch key now e d with hsame | ⟨value, pc, hadd⟩
  · rw [hsame]
    exact hslot
  · rw [hadd]
    exact addMove_keeps hkey value pc idx k hslot

end Worker

/-- An access of `add` for one of the workers. -/
def AddsFor (S : Setup) (e e' : Epistle UInt32 capacity) : Prop :=
  e' = e ∨ ∃ w value pc, e' = (Epistle.addMove (S.tid w) value e pc).2

omit [NeZero capacity] in
theorem AddsFor.keeps {e e' : Epistle UInt32 capacity} (hadds : AddsFor S e e') (idx : Fin capacity) (k : Int32)
    (hslot : e.occ idx = some k) : e'.occ idx = some k := by
  rcases hadds with rfl | ⟨w, value, pc, rfl⟩
  · exact hslot
  · exact addMove_keeps (S.tid_ne_zero w) value pc idx k hslot

theorem HandOff.moveGenerator_epistle (s : HandOff S capacity) (input : Input) :
    AddsFor S s.epistle (s.moveGenerator input).epistle := by
  unfold moveGenerator
  cases hpc : s.generator with
  | launch | receive | assign | stopped | failed => exact .inl rfl
  | wait | enter =>
    dsimp only
    split <;> exact .inl rfl
  | look w get | confirm w get =>
    dsimp only
    split
    · exact .inl rfl
    · split <;> exact .inl rfl
  | expectZero w | testEmpty w | bound w =>
    left
    apply withWork_of (P := fun t => t.epistle = s.epistle) rfl
    intro work
    split <;> rfl
  | clear w | push w k r | store w num | measure w =>
    left
    apply withWork_of (P := fun t => t.epistle = s.epistle) rfl
    intro work
    rfl
  | arrive w k =>
    dsimp only
    split
    · exact .inl rfl
    · split <;> exact .inl rfl
  | hand w add =>
    right
    refine ⟨w, epistleThreadRunnable, add, ?_⟩
    rcases hmove : Epistle.addMove (S.tid w) epistleThreadRunnable s.epistle add with ⟨add', e'⟩
    simp only [hmove]
    cases add' <;> rfl

namespace Experiment

variable {s t : Experiment S capacity}

theorem moveGenerator_epistle (input : Input) :
    AddsFor S s.handOff.epistle (s.moveGenerator input).handOff.epistle := by
  unfold moveGenerator
  cases hgenerator : s.generator with
  | working =>
    dsimp only
    split
    · exact .inl rfl
    · exact s.handOff.moveGenerator_epistle input
  | head | exited => exact .inl rfl
  | mark w pc =>
    right
    refine ⟨w, epistleThreadRunnable, pc, ?_⟩
    rcases hmove : Epistle.addMove (S.tid w) epistleThreadRunnable s.handOff.epistle pc with ⟨pc', e'⟩
    simp only [hmove]
    cases pc' <;> rfl

theorem move_epistle (thread : Thread S.numWorkers) (signal : Signal) :
    AddsFor S s.handOff.epistle (s.move thread signal).handOff.epistle := by
  cases thread with
  | generator => exact moveGenerator_epistle signal.toInput
  | worker w =>
    show AddsFor S _ (moveWorker w _ _).handOff.epistle
    cases hworker : s.worker w with
    | head | exited =>
      left
      simp only [moveWorker, hworker]
    | inside =>
      have hadd := Desk.move_epistle S.batch (S.tid w) signal.now s.handOff.epistle (s.handOff.desk w)
      simp only [moveWorker, hworker]
      exact hadd.imp_right fun h => ⟨w, h⟩
  | main =>
    left
    show (moveMain _ _).handOff.epistle = _
    rcases moveMain_handOff signal { s with handOff := { s.handOff with clock := signal.now } } with h | h
    · rw [h]
      unfold HandOff.moveMain
      repeat' split
      all_goals rfl
    · rw [h]

/-- What a worker has spent since it has last tested `exit_all`, and since `exit_all` was set. -/
structure Budgets (s : Experiment S capacity) : Prop where
  inside : ∀ w, s.worker w = .inside →
    Budget S.batch (S.tid w) s.handOff.epistle.occ (s.spent w) (s.handOff.desk w).pc
  head : ∀ w, s.worker w = .head → (s.handOff.desk w).pc = .poll (.test (Epistle.hash (S.tid w))) ∧
    s.spent w ≤ roundAccesses S.batch capacity
  early : s.exitAll = false → ∀ w, s.late w = 0
  late : ∀ w, s.worker w ≠ .exited → s.late w ≤ s.spent w
  exited : ∀ w, s.worker w = .exited → s.late w ≤ roundAccesses S.batch capacity + 1

namespace Budgets

theorem init (S : Setup) (e : Epistle UInt32 capacity) : Budgets (Experiment.init S e) where
  inside _ _ := rfl
  head _ hworker := by cases hworker
  early _ _ := rfl
  late _ _ := Nat.le_refl 0
  exited _ hworker := by cases hworker

/-- The steps of others only add keys to the table. -/
theorem frame (h : Budgets s) (hkeeps : ∀ idx k, s.handOff.epistle.occ idx = some k → t.handOff.epistle.occ idx = some k)
    (hpc : ∀ w, (t.handOff.desk w).pc = (s.handOff.desk w).pc) (hworker : t.worker = s.worker)
    (hspent : t.spent = s.spent) (hlate : t.late = s.late) (hexit : t.exitAll = false → s.exitAll = false) :
    Budgets t where
  inside w hinside := by
    rw [hpc, hspent]
    exact (h.inside w (hworker ▸ hinside)).mono hkeeps
  head w hhead := by
    rw [hpc, hspent]
    exact h.head w (hworker ▸ hhead)
  early hnot := by
    rw [hlate]
    exact h.early (hexit hnot)
  late w hnot := by
    rw [hlate, hspent]
    exact h.late w (hworker ▸ hnot)
  exited w hexited := by
    rw [hlate]
    exact h.exited w (hworker ▸ hexited)

theorem main (h : Budgets s) (signal : Signal) : Budgets (s.moveMain signal) := by
  have hmain : ∀ idx k, s.handOff.epistle.occ idx = some k → s.handOff.moveMain.epistle.occ idx = some k := by
    intro idx k hslot
    unfold HandOff.moveMain
    repeat' split
    all_goals exact hslot
  rcases moveMain_cases signal s with ⟨-, -, hmove⟩ | ⟨exitAll, _, _, _, hexit, -, hmove⟩
  · rw [hmove]
    exact h.frame hmain HandOff.moveMain_pc rfl rfl rfl id
  · rw [hmove]
    refine h.frame (fun _ _ hslot => hslot) (fun _ => rfl) rfl rfl rfl fun hnot => ?_
    exact Bool.eq_false_of_not_eq_true fun hset => by simp [hexit hset] at hnot

theorem generator (h : Budgets s) (input : Input) : Budgets (s.moveGenerator input) := by
  have hkeeps := (moveGenerator_epistle (s := s) input).keeps
  unfold moveGenerator at hkeeps ⊢
  cases hgenerator : s.generator with
  | working =>
    simp only [hgenerator] at hkeeps ⊢
    split
    · exact h.frame (fun _ _ hslot => hslot) (fun _ => rfl) rfl rfl rfl id
    · exact h.frame (s.handOff.moveGenerator_epistle input).keeps (s.handOff.moveGenerator_frame input).1 rfl rfl rfl id
  | head => exact h.frame (fun _ _ hslot => hslot) (fun _ => rfl) rfl rfl rfl id
  | exited => exact h
  | mark w pc =>
    simp only [hgenerator] at hkeeps ⊢
    rcases hmove : Epistle.addMove (S.tid w) epistleThreadRunnable s.handOff.epistle pc with ⟨pc', e'⟩
    rw [hmove] at hkeeps
    cases pc' <;> exact h.frame hkeeps (fun _ => rfl) rfl rfl rfl id

/-- An access of the worker `w`, by what it does to its own counters. -/
theorem worker_step (h : Budgets s) {w : Fin S.numWorkers}
    (hkeeps : ∀ idx k, s.handOff.epistle.occ idx = some k → t.handOff.epistle.occ idx = some k)
    (hdesk : ∀ v, v ≠ w → t.handOff.desk v = s.handOff.desk v) (hworker : ∀ v, v ≠ w → t.worker v = s.worker v)
    (hspent : ∀ v, v ≠ w → t.spent v = s.spent v)
    (hlate : t.late = if s.exitAll then Function.update s.late w (s.late w + 1) else s.late)
    (hexit : t.exitAll = s.exitAll)
    (hinside : t.worker w = .inside → Budget S.batch (S.tid w) t.handOff.epistle.occ (t.spent w) (t.handOff.desk w).pc)
    (hhead : t.worker w = .head → (t.handOff.desk w).pc = .poll (.test (Epistle.hash (S.tid w))) ∧
      t.spent w ≤ roundAccesses S.batch capacity)
    (hlateW : t.worker w ≠ .exited → t.late w ≤ t.spent w)
    (hexitedW : t.worker w = .exited → t.late w ≤ roundAccesses S.batch capacity + 1) : Budgets t := by
  have hlateOther : ∀ v, v ≠ w → t.late v = s.late v := by
    intro v hv
    rw [hlate]
    split
    · exact Function.update_of_ne hv ..
    · rfl
  constructor
  case inside =>
    intro v hv
    by_cases heq : v = w
    · exact heq ▸ hinside (heq ▸ hv)
    · rw [hdesk v heq, hspent v heq]
      exact (h.inside v ((hworker v heq).symm.trans hv)).mono hkeeps
  case head =>
    intro v hv
    by_cases heq : v = w
    · exact heq ▸ hhead (heq ▸ hv)
    · rw [hdesk v heq, hspent v heq]
      exact h.head v ((hworker v heq).symm.trans hv)
  case early =>
    intro hnot v
    rw [hexit] at hnot
    rw [hlate, hnot]
    exact h.early hnot v
  case late =>
    intro v hv
    by_cases heq : v = w
    · exact heq ▸ hlateW (heq ▸ hv)
    · rw [hlateOther v heq, hspent v heq]
      exact h.late v (hworker v heq ▸ hv)
  case exited =>
    intro v hv
    by_cases heq : v = w
    · exact heq ▸ hexitedW (heq ▸ hv)
    · rw [hlateOther v heq]
      exact h.exited v ((hworker v heq).symm.trans hv)

/-- The worker is at the head of its loop: it exits or begins a new round. -/
theorem worker_head (h : Budgets s) {w : Fin S.numWorkers} (hworker : s.worker w = .head) (now : UInt64) :
    Budgets (s.moveWorker w now) := by
  obtain ⟨hpc, hspent⟩ := h.head w hworker
  have hlate := h.late w (by simp [hworker])
  have hmove : s.moveWorker w now = { s with
      worker := Function.update s.worker w (if s.exitAll then .exited else .inside)
      spent := Function.update s.spent w 0
      late := if s.exitAll then Function.update s.late w (s.late w + 1) else s.late } := by
    simp only [moveWorker, hworker]
  rw [hmove]
  refine h.worker_step (fun _ _ hslot => hslot) (fun _ _ => rfl) (fun v hv => Function.update_of_ne hv ..)
    (fun v hv => Function.update_of_ne hv ..) rfl rfl ?_ ?_ ?_ ?_
  · intro _
    rw [hpc]
    exact ⟨0, .start s.handOff.epistle.occ (S.tid w), by simp⟩
  · intro hhead
    cases hexit : s.exitAll <;> simp [hexit] at hhead
  · intro hnot
    cases hexit : s.exitAll with
    | true => simp [hexit] at hnot
    | false => simp [h.early hexit]
  · intro hexited
    cases hexit : s.exitAll with
    | true =>
      have hbound : s.late w + 1 ≤ roundAccesses S.batch capacity + 1 := by omega
      simpa [hexit] using hbound
    | false => simp [hexit] at hexited

/-- The worker is in its round. -/
theorem worker_inside (h : Budgets s) {w : Fin S.numWorkers} (hworker : s.worker w = .inside) (now : UInt64)
    {slot : Fin capacity} (hfree : (s.moveWorker w now).handOff.epistle.occ slot = none) :
    Budgets (s.moveWorker w now) := by
  have hmove : s.moveWorker w now = { s with
      handOff := s.handOff.moveWorker w now
      worker := Function.update s.worker w
        (if (s.handOff.desk w).loops (S.tid w) s.handOff.epistle then .head else .inside)
      spent := Function.update s.spent w (s.spent w + 1)
      late := if s.exitAll then Function.update s.late w (s.late w + 1) else s.late } := by
    simp only [moveWorker, hworker]
  have hself : (s.handOff.moveWorker w now).desk w =
      ((s.handOff.desk w).move S.batch (S.tid w) now s.handOff.epistle).2 := Function.update_self ..
  rw [hmove] at hfree ⊢
  have hspends := (h.inside w hworker).move (S.tid_ne_zero w) hfree
  have hlate := h.late w (by simp [hworker])
  have hlateSelf : (if s.exitAll then Function.update s.late w (s.late w + 1) else s.late) w ≤ s.spent w + 1 := by
    split
    · rw [Function.update_self]
      omega
    · omega
  refine h.worker_step (Desk.move_keeps (S.tid_ne_zero w)) (fun v hv => Function.update_of_ne hv ..)
    (fun v hv => Function.update_of_ne hv ..) (fun v hv => Function.update_of_ne hv ..) rfl rfl ?_ ?_ ?_ ?_
  · intro hinside
    dsimp only at hinside ⊢
    rw [Function.update_self] at hinside ⊢
    cases hloops : (s.handOff.desk w).loops (S.tid w) s.handOff.epistle with
    | true => simp [hloops] at hinside
    | false =>
      rw [hloops] at hspends
      rw [hself]
      exact hspends
  · intro hhead
    dsimp only at hhead ⊢
    rw [Function.update_self] at hhead ⊢
    cases hloops : (s.handOff.desk w).loops (S.tid w) s.handOff.epistle with
    | true =>
      rw [hloops] at hspends
      rw [hself]
      exact ⟨Desk.pc_of_loops hloops, hspends⟩
    | false => simp [hloops] at hhead
  · intro _
    dsimp only
    rw [Function.update_self]
    exact hlateSelf
  · intro hexited
    dsimp only at hexited
    rw [Function.update_self] at hexited
    split at hexited <;> cases hexited

theorem worker (h : Budgets s) (w : Fin S.numWorkers) (now : UInt64) {slot : Fin capacity}
    (hfree : (s.moveWorker w now).handOff.epistle.occ slot = none) : Budgets (s.moveWorker w now) := by
  cases hworker : s.worker w with
  | head => exact h.worker_head hworker now
  | inside => exact h.worker_inside hworker now hfree
  | exited =>
    simp only [moveWorker, hworker]
    exact h

end Budgets

theorem Step.keeps {action : Thread S.numWorkers × Signal} (hstep : Step s action t) (idx : Fin capacity) (k : Int32)
    (hslot : s.handOff.epistle.occ idx = some k) : t.handOff.epistle.occ idx = some k := by
  obtain ⟨-, rfl⟩ := hstep
  exact (move_epistle action.1 action.2).keeps idx k hslot

/-- A slot that is empty was empty before. -/
theorem Step.free_before {action : Thread S.numWorkers × Signal} (hstep : Step s action t) {slot : Fin capacity}
    (hfree : t.handOff.epistle.occ slot = none) : s.handOff.epistle.occ slot = none := by
  rw [Option.eq_none_iff_forall_ne_some]
  intro k hslot
  rw [hstep.keeps slot k hslot] at hfree
  cases hfree

/-- As long as a slot is empty, everybody keeps to the budget. -/
theorem budgets_of_runs {e : Epistle UInt32 capacity} {actions : List (Thread S.numWorkers × Signal)}
    (hrun : Runs Step (Experiment.init S e) actions s) {slot : Fin capacity} (hfree : s.handOff.epistle.occ slot = none) :
    Budgets s := by
  have hall : ∀ slot, s.handOff.epistle.occ slot = none → Budgets s := by
    refine hrun.invariant (P := fun s => ∀ slot, s.handOff.epistle.occ slot = none → Budgets s)
      (fun _ _ => .init S e) ?_
    intro s action t hbudgets hstep slot hfree
    have h := hbudgets slot (hstep.free_before hfree)
    obtain ⟨thread, signal⟩ := action
    obtain ⟨-, rfl⟩ := hstep
    have hticked : Budgets { s with handOff := { s.handOff with clock := signal.now } } :=
      h.frame (fun _ _ hslot => hslot) (fun _ => rfl) rfl rfl rfl id
    cases thread with
    | main => exact hticked.main signal
    | generator => exact hticked.generator signal.toInput
    | worker w => exact hticked.worker w signal.now hfree
  exact hall slot hfree

end Experiment

open Experiment in
/-- **Every worker exits soon**: in every run, while a slot of the epistle is empty, a worker makes at most `roundAccesses` accesses between two tests of `exit_all`, and at most one more after `exit_all` was set, whatever the other threads do; if it has made that many, it has exited. -/
theorem exits_within {e : Epistle UInt32 capacity} {actions : List (Thread S.numWorkers × Signal)}
    {s : Experiment S capacity} (hrun : Runs Step (Experiment.init S e) actions s) {slot : Fin capacity}
    (hfree : (s.handOff.epistle.table slot).key = 0) {w : Fin S.numWorkers} (hpc : (s.handOff.desk w).pc ≠ .failed) :
    s.late w ≤ roundAccesses S.batch capacity + 1 ∧
      (s.worker w ≠ .exited → s.spent w ≤ roundAccesses S.batch capacity ∧
        s.late w ≤ roundAccesses S.batch capacity) := by
  have hslot := Epistle.occ_eq_none.mpr hfree
  have h := budgets_of_runs hrun hslot
  have hspent : s.worker w ≠ .exited → s.spent w ≤ roundAccesses S.batch capacity := by
    intro hnot
    cases hworker : s.worker w with
    | head => exact (h.head w hworker).2
    | inside => exact (h.inside w hworker).le hslot hpc
    | exited => exact absurd hworker hnot
  by_cases hexited : s.worker w = .exited
  · exact ⟨h.exited w hexited, fun hnot => absurd hexited hnot⟩
  · have hlate := (h.late w hexited).trans (hspent hexited)
    exact ⟨Nat.le_succ_of_le hlate, fun hnot => ⟨hspent hnot, hlate⟩⟩

set_option maxRecDepth 8000 in
theorem exits_within_first :
    (afterExit 4).worker theWorker = .exited ∧ (afterExit 4).late theWorker ≤ roundAccesses 1 4 + 1 := by
  obtain ⟨actions, -, hrun⟩ := runs_afterExit
  have hsteps : Runs Experiment.Step (Experiment.init oneWorker Epistle.init) actions (afterExit 4) :=
    hrun.mono fun _ _ _ hstep => hstep.1
  have hfree : ((afterExit 4).handOff.epistle.table 0).key = 0 := by decide
  have hpc : ((afterExit 4).handOff.desk theWorker).pc ≠ .failed := by decide
  exact ⟨by decide, (exits_within hsteps hfree hpc).1⟩

end Workload

end CosUserspace
