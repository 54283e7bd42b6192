import CosUserspace.Workload.Exit

/-!
# How soon the generator is done with a round

Between two tests of `exit_all` the generator goes over the workers once. What it does at one worker takes a bounded number of accesses, whatever the others do in between: three calls on the epistle, four accesses to each request of a batch and eight more. `Ahead` says how many are ahead of each access. The loop that marks all workers takes a call for each of them.
-/

namespace CosUserspace

namespace Workload

variable {capacity : Nat} [NeZero capacity] {S : Setup}

open Epistle.Clients (Bounded addMove_bounded getMove_bounded addMove_keeps)

/-- The most accesses of the generator at one worker. -/
def visitAccesses (batch capacity : Nat) : Nat := 3 * callAccesses capacity + 4 * batch + 8

/-- The most accesses of the generator from the worker `i` on, up to the end of its round. -/
def restAccesses (S : Setup) (capacity i : Nat) : Nat := (S.numWorkers - i) * visitAccesses S.batch capacity + 1

/-- The generator is back at the head of its loop after `n` accesses. -/
def Ahead (S : Setup) (occ : Fin capacity → Option Int32) (n : Nat) : GeneratorPc S.numWorkers capacity → Prop
  | .wait => 2 ≤ n
  | .launch => 1 ≤ n
  | .enter i => i = 0 ∨ restAccesses S capacity i ≤ n
  | .look w pc => ∃ count, Bounded occ count (.getting (S.tid w) pc : Epistle.Client UInt32 capacity) ∧
      restAccesses S capacity (w + 1) + 3 * callAccesses capacity + 4 * S.batch + 7 ≤ n + count
  | .expectZero w => restAccesses S capacity (w + 1) + 2 * callAccesses capacity + 4 * S.batch + 7 ≤ n
  | .clear w => restAccesses S capacity (w + 1) + 2 * callAccesses capacity + 4 * S.batch + 6 ≤ n
  | .arrive w k => k < S.batch ∧ restAccesses S capacity (w + 1) + 2 * callAccesses capacity + 4 * S.batch + 5 ≤ n + 4 * k
  | .receive w k _ =>
    k < S.batch ∧ restAccesses S capacity (w + 1) + 2 * callAccesses capacity + 4 * S.batch + 4 ≤ n + 4 * k
  | .assign w k _ =>
    k < S.batch ∧ restAccesses S capacity (w + 1) + 2 * callAccesses capacity + 4 * S.batch + 3 ≤ n + 4 * k
  | .push w k _ =>
    k < S.batch ∧ restAccesses S capacity (w + 1) + 2 * callAccesses capacity + 4 * S.batch + 2 ≤ n + 4 * k
  | .testEmpty w => restAccesses S capacity (w + 1) + 2 * callAccesses capacity + 4 ≤ n
  | .bound w => restAccesses S capacity (w + 1) + 2 * callAccesses capacity + 3 ≤ n
  | .measure w => restAccesses S capacity (w + 1) + 2 * callAccesses capacity + 2 ≤ n
  | .store w _ => restAccesses S capacity (w + 1) + 2 * callAccesses capacity + 1 ≤ n
  | .confirm w pc => ∃ count, Bounded occ count (.getting (S.tid w) pc : Epistle.Client UInt32 capacity) ∧
      restAccesses S capacity (w + 1) + 2 * callAccesses capacity ≤ n + count
  | .hand w pc => ∃ count, Bounded occ count (.adding (S.tid w) epistleThreadRunnable pc) ∧
      restAccesses S capacity (w + 1) + callAccesses capacity ≤ n + count
  | .stopped _ | .failed => True

section

variable {occ occ' : Fin capacity → Option Int32} {n : Nat} {s : HandOff S capacity} {slot : Fin capacity}

theorem Ahead.mono {pc : GeneratorPc S.numWorkers capacity} (h : Ahead S occ n pc)
    (hkeeps : ∀ idx k, occ idx = some k → occ' idx = some k) : Ahead S occ' n pc := by
  cases pc with
  | look w pc | confirm w pc | hand w pc =>
    obtain ⟨count, hbounded, hcount⟩ := h
    exact ⟨count, hbounded.mono hkeeps, hcount⟩
  | _ => exact h

omit [NeZero capacity] in
theorem restAccesses_eq {i : Nat} (hi : i < S.numWorkers) :
    restAccesses S capacity i = restAccesses S capacity (i + 1) + visitAccesses S.batch capacity := by
  obtain ⟨d, hd⟩ : ∃ d, S.numWorkers - i = d + 1 := ⟨S.numWorkers - i - 1, by omega⟩
  have hnext : S.numWorkers - (i + 1) = d := by omega
  unfold restAccesses
  rw [hd, hnext, Nat.succ_mul]
  omega

/-- The head of the loop that fills the batch. -/
theorem Ahead.nextPoll {w : Fin S.numWorkers} {k : Nat} (hk : k ≤ S.batch)
    (hn : restAccesses S capacity (w + 1) + 2 * callAccesses capacity + 4 * S.batch + 5 ≤ n + 4 * k) :
    Ahead S occ n (HandOff.nextPoll S w k) := by
  unfold HandOff.nextPoll
  split
  · rename_i hlt
    exact ⟨hlt, hn⟩
  · show restAccesses S capacity (w + 1) + 2 * callAccesses capacity + 4 ≤ n
    omega

/-- An access through `worker_works[tid]`. -/
theorem Ahead.withWork {w : Fin S.numWorkers} {f : WorkerWork → HandOff S capacity}
    (hf : ∀ work, Ahead S (f work).epistle.occ n (f work).generator) :
    Ahead S (s.withWork w f).epistle.occ n (s.withWork w f).generator :=
  HandOff.withWork_of (P := fun t => Ahead S t.epistle.occ n t.generator) trivial hf

/-- A call that is not over has an access left. -/
theorem count_lt {client : Epistle.Client UInt32 capacity} {count : Nat} (hbounded : Bounded occ count client)
    (hbusy : client ≠ .idle) (hfree : occ slot = none) : count + 1 ≤ callAccesses capacity :=
  Nat.succ_le_succ ((hbounded.count_le hfree).2 hbusy)

/-- Every access of the generator in its round is one of those that were ahead. -/
theorem Ahead.move {input : Input} (h : Ahead S s.epistle.occ n s.generator)
    (hlock : s.generator = .wait → s.generatorLock = true) (henter : s.generator ≠ .enter 0)
    (hstopped : ∀ w, s.generator ≠ .stopped w) (hfailed : s.generator ≠ .failed)
    (hfree : s.epistle.occ slot = none) (hfree' : (s.moveGenerator input).epistle.occ slot = none) :
    ∃ m < n, Ahead S (s.moveGenerator input).epistle.occ m (s.moveGenerator input).generator := by
  unfold HandOff.moveGenerator at hfree' ⊢
  cases hpc : s.generator with
  | wait =>
    simp only [hpc] at h
    have hn : 2 ≤ n := h
    simp only [hlock hpc, if_true]
    exact ⟨n - 1, by omega, by show 1 ≤ n - 1; omega⟩
  | launch =>
    simp only [hpc] at h
    have hn : 1 ≤ n := h
    exact ⟨n - 1, by omega, .inl rfl⟩
  | stopped w => exact absurd hpc (hstopped w)
  | failed => exact absurd hpc hfailed
  | enter i =>
    simp only [hpc] at h
    have hi : i ≠ 0 := fun heq => henter (heq ▸ hpc)
    have hn := h.resolve_left hi
    have hpos : 1 ≤ restAccesses S capacity i := Nat.le_add_left ..
    dsimp only
    split
    · rename_i hlt
      rw [restAccesses_eq hlt] at hn
      unfold visitAccesses at hn
      exact ⟨n - 1, by omega, 0, .start s.epistle.occ _, by show _ ≤ _; dsimp only; omega⟩
    · exact ⟨n - 1, by omega, .inl rfl⟩
  | look w pc =>
    simp only [hpc] at h
    obtain ⟨count, hbounded, hn⟩ := h
    have hlt := count_lt hbounded (by simp) hfree
    dsimp only
    rcases getting_cases hbounded hfree with ⟨pc', hmove, hbounded'⟩ | ⟨hint, hmove, -⟩
    · simp only [hmove]
      exact ⟨n - 1, by omega, count + 1, hbounded', by omega⟩
    · simp only [hmove]
      split
      · exact ⟨n - 1, by omega, .inr (by omega)⟩
      · refine ⟨n - 1, by omega, ?_⟩
        show _ ≤ _
        omega
  | expectZero w =>
    simp only [hpc] at h
    have hn : restAccesses S capacity (w + 1) + 2 * callAccesses capacity + 4 * S.batch + 7 ≤ n := h
    refine ⟨n - 1, by omega, Ahead.withWork fun work => ?_⟩
    split
    · show _ ≤ _
      omega
    · trivial
  | clear w =>
    simp only [hpc] at h
    have hn : restAccesses S capacity (w + 1) + 2 * callAccesses capacity + 4 * S.batch + 6 ≤ n := h
    exact ⟨n - 1, by omega, Ahead.withWork fun work => .nextPoll (Nat.zero_le _) (by omega)⟩
  | arrive w k =>
    simp only [hpc] at h
    obtain ⟨hk, hn⟩ := h
    refine ⟨n - 1, by omega, ?_⟩
    dsimp only
    split
    · trivial
    · split
      · exact ⟨hk, by omega⟩
      · show _ ≤ _
        omega
  | receive w k arrival =>
    simp only [hpc] at h
    obtain ⟨hk, hn⟩ := h
    exact ⟨n - 1, by omega, hk, by omega⟩
  | assign w k request =>
    simp only [hpc] at h
    obtain ⟨hk, hn⟩ := h
    exact ⟨n - 1, by omega, hk, by omega⟩
  | push w k request =>
    simp only [hpc] at h
    obtain ⟨hk, hn⟩ := h
    exact ⟨n - 1, by omega, Ahead.withWork fun work => .nextPoll hk (by omega)⟩
  | testEmpty w =>
    simp only [hpc] at h
    have hn : restAccesses S capacity (w + 1) + 2 * callAccesses capacity + 4 ≤ n := h
    refine ⟨n - 1, by omega, Ahead.withWork fun work => ?_⟩
    split
    · exact .inl rfl
    · show _ ≤ _
      omega
  | bound w =>
    simp only [hpc] at h
    have hn : restAccesses S capacity (w + 1) + 2 * callAccesses capacity + 3 ≤ n := h
    refine ⟨n - 1, by omega, Ahead.withWork fun work => ?_⟩
    split
    · show _ ≤ _
      omega
    · trivial
  | measure w =>
    simp only [hpc] at h
    have hn : restAccesses S capacity (w + 1) + 2 * callAccesses capacity + 2 ≤ n := h
    refine ⟨n - 1, by omega, Ahead.withWork fun work => ?_⟩
    show _ ≤ _
    omega
  | store w num =>
    simp only [hpc] at h
    have hn : restAccesses S capacity (w + 1) + 2 * callAccesses capacity + 1 ≤ n := h
    refine ⟨n - 1, by omega, Ahead.withWork fun work => ?_⟩
    exact ⟨0, .start s.epistle.occ _, by omega⟩
  | confirm w pc =>
    simp only [hpc] at h
    obtain ⟨count, hbounded, hn⟩ := h
    have hlt := count_lt hbounded (by simp) hfree
    dsimp only
    rcases getting_cases hbounded hfree with ⟨pc', hmove, hbounded'⟩ | ⟨hint, hmove, -⟩
    · simp only [hmove]
      exact ⟨n - 1, by omega, count + 1, hbounded', by omega⟩
    · simp only [hmove]
      refine ⟨n - 1, by omega, ?_⟩
      split
      · exact ⟨0, .start s.epistle.occ _, by omega⟩
      · trivial
  | hand w pc =>
    simp only [hpc] at h hfree'
    obtain ⟨count, hbounded, hn⟩ := h
    have hlt := count_lt hbounded (by simp) hfree
    rcases hmove : Epistle.addMove (S.tid w) epistleThreadRunnable s.epistle pc with ⟨pc', e'⟩
    simp only [hmove] at hfree' ⊢
    have hafter : e'.occ slot = none := by cases pc' <;> exact hfree'
    rcases adding_cases (S.tid_ne_zero w) hbounded hmove hafter with ⟨rfl, -⟩ | ⟨hnot, hbounded'⟩
    · exact ⟨n - 1, by omega, .inr (by omega)⟩
    · refine ⟨n - 1, by omega, ?_⟩
      cases pc' with
      | returned => exact absurd rfl hnot
      | _ => exact ⟨count + 1, hbounded', by omega⟩

/-- At each access but finitely many are ahead. -/
theorem Ahead.move_exists {input : Input} (h : ∃ n, Ahead S s.epistle.occ n s.generator)
    (hfree : s.epistle.occ slot = none) (hfree' : (s.moveGenerator input).epistle.occ slot = none) :
    ∃ n, Ahead S (s.moveGenerator input).epistle.occ n (s.moveGenerator input).generator := by
  obtain ⟨n, h⟩ := h
  have hstay : s.moveGenerator input = s →
      ∃ n, Ahead S (s.moveGenerator input).epistle.occ n (s.moveGenerator input).generator := by
    intro heq
    rw [heq]
    exact ⟨n, h⟩
  cases hpc : s.generator with
  | failed | stopped w =>
    apply hstay
    simp only [HandOff.moveGenerator, hpc]
  | enter i =>
    simp only [HandOff.moveGenerator, hpc]
    split
    · -- the visits to this worker and to those after it
      refine ⟨restAccesses S capacity (i + 1) + visitAccesses S.batch capacity, 0, .start s.epistle.occ _, ?_⟩
      unfold visitAccesses
      dsimp only
      omega
    · exact ⟨0, .inl rfl⟩
  | wait =>
    cases hlock : s.generatorLock with
    | false =>
      apply hstay
      simp [HandOff.moveGenerator, hpc, hlock]
    | true =>
      obtain ⟨m, -, hm⟩ := h.move (fun _ => hlock) (by simp [hpc]) (by simp [hpc]) (by simp [hpc]) hfree hfree'
      exact ⟨m, hm⟩
  | _ =>
    obtain ⟨m, -, hm⟩ := h.move (by simp [hpc]) (by simp [hpc]) (by simp [hpc]) (by simp [hpc]) hfree hfree'
    exact ⟨m, hm⟩

end

end Workload

end CosUserspace
