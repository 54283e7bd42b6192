import CosUserspace.Workload.Frames

/-!
# Who is ready

The scheduler leaves a worker alone as long as the epistle calls it IDLE, so only the others can be relied on to move. A worker that is not polling is never marked IDLE, and neither is one that has not moved since the generator marked it in its last loop. In this loop the generator gets to each worker within a bounded number of accesses.
-/

namespace CosUserspace

namespace Workload

open Epistle.Clients (Bounded)

variable {capacity : Nat} [NeZero capacity] {S : Setup}

/-! ### Not IDLE -/

section Desk

variable {batch : Nat} {key : Int32} {e : Epistle UInt32 capacity} {clock : UInt64} {stage : Stage} {d : Desk capacity}

/-- A worker that is marked RUNNABLE is not marked IDLE. -/
theorem not_idle_of_runnable (hplaced : KeyPlaced Epistle.hash e.occ key) (hholds : e.Holds key epistleThreadRunnable) :
    ¬ e.Holds key epistleThreadIdle := by
  intro hidle
  have hne : epistleThreadRunnable ≠ epistleThreadIdle := by decide
  exact hne (hholds.value_eq hplaced hidle)

theorem DeskInv.not_idle (h : DeskInv batch key e clock stage d) (hnot : ¬ d.pc.Polling) :
    ¬ e.Holds key epistleThreadIdle := by
  cases h.turn with
  | idle _ hpc | loaded hpc => exact absurd hpc hnot
  | running _ hholds | released _ hholds => exact not_idle_of_runnable h.placed hholds
  | starting _ hunset =>
    -- the default value is RUNNABLE
    rintro ⟨idx, hidx, hvalue⟩
    have hne : (default : UInt32) ≠ epistleThreadIdle := by decide
    exact hne ((hunset idx hidx).symm.trans hvalue)

theorem Closing.not_idle (h : Closing batch key e clock d) (hnot : ¬ d.pc.Polling) : ¬ e.Holds key epistleThreadIdle := by
  rcases h with hdesk | hspurious
  · exact hdesk.not_idle hnot
  · exact not_idle_of_runnable hspurious.placed hspurious.holds

end Desk

namespace Experiment

variable {s t : Experiment S capacity} {action : Thread S.numWorkers × Signal}

/-- The scheduler runs the workers that are there and not marked IDLE. `main` and the generator are not its threads. -/
def Ready : Thread S.numWorkers → Experiment S capacity → Prop
  | .worker w, s => s.worker w ≠ .exited ∧ ¬ s.handOff.epistle.Holds (S.tid w) epistleThreadIdle
  | .main, _ | .generator, _ => True

theorem Inv.ready (h : Inv s) {w : Fin S.numWorkers} (hnot : ¬ (s.handOff.desk w).pc.Polling) : Ready (.worker w) s := by
  refine ⟨fun hexited => hnot (h.heads w (by simp [hexited])), ?_⟩
  by_cases hworking : s.generator = .working
  · exact ((h.working hworking).desks w).not_idle hnot
  · exact ((h.closed hworking).desks w).not_idle hnot

/-! ### The last loop of the generator -/

/-- An access of the generator while it marks the workers. -/
theorem Step.marks_worker (hstep : Step s action t) (hmove : action.1 = .generator) (h : Inv s) {v : Fin S.numWorkers}
    {pc : Epistle.AddPc capacity} (hmark : s.generator = .mark v pc) :
    (∃ pc', t.generator = .mark v pc' ∧ t.handOff.epistle = s.handOff.epistle ∧
      Epistle.addMove (S.tid v) epistleThreadRunnable s.handOff.epistle pc = (pc', s.handOff.epistle) ∧ pc' ≠ .returned) ∨
    t.generator = nextMark S (v + 1) ∧ Epistle.Touches (S.tid v) s.handOff.epistle t.handOff.epistle ∧
      KeyPlaced Epistle.hash t.handOff.epistle.occ (S.tid v) ∧ t.handOff.epistle.Holds (S.tid v) epistleThreadRunnable := by
  have hmarking : s.generator ≠ .working := by simp [hmark]
  have hclosed := h.closed hmarking
  obtain ⟨hint, hholds⟩ := (hclosed.desks v).holds (h.registered (h.exit hmarking) v)
  obtain ⟨thread, signal⟩ := action
  obtain ⟨-, rfl⟩ := hstep
  obtain rfl : thread = .generator := hmove
  rcases Epistle.addMove_seeks epistleThreadRunnable (hclosed.desks v).placed hholds (h.marks v pc hmark) with
    ⟨pc', hadd, -, hgoes⟩ | ⟨e', hadd, htouches, hplaced, hholds'⟩
  · left
    have hnext : s.move .generator signal =
        { s with handOff := { s.handOff with clock := signal.now }, generator := .mark v pc' } := by
      show moveGenerator _ _ = _
      simp only [moveGenerator, hmark, hadd]
    rw [hnext]
    exact ⟨pc', rfl, rfl, hadd, hgoes⟩
  · right
    have hnext : s.move .generator signal =
        { s with handOff := { s.handOff with clock := signal.now, epistle := e' }, generator := nextMark S (v + 1) } := by
      show moveGenerator _ _ = _
      simp only [moveGenerator, hmark, hadd]
    rw [hnext]
    exact ⟨rfl, htouches, hplaced, hholds'⟩

/-- Once the hand-off is over, nobody else takes a worker's readiness away. -/
theorem Step.ready_stays (hstep : Step s action t) (h : Inv s) (hclosed : s.generator ≠ .working) {w : Fin S.numWorkers}
    (hother : action.1 ≠ .worker w) (hready : Ready (.worker w) s) : Ready (.worker w) t := by
  obtain ⟨hthere, hidle⟩ := hready
  refine ⟨(hstep.worker_frame hother).1 ▸ hthere, ?_⟩
  have hsame : t.handOff.epistle = s.handOff.epistle → ¬ t.handOff.epistle.Holds (S.tid w) epistleThreadIdle :=
    fun heq => heq ▸ hidle
  have htouch : ∀ v, w ≠ v → Epistle.Touches (S.tid v) s.handOff.epistle t.handOff.epistle →
      ¬ t.handOff.epistle.Holds (S.tid w) epistleThreadIdle :=
    fun v hv htouches hholds => hidle (htouches.of_holds (fun heq => hv (S.tid_injective heq)) hholds)
  by_cases hmove : action.1 = .generator
  · cases hlife : s.generator with
    | working => exact absurd hlife hclosed
    | head | exited =>
      apply hsame
      obtain ⟨thread, signal⟩ := action
      obtain ⟨-, rfl⟩ := hstep
      obtain rfl : thread = .generator := hmove
      show (moveGenerator _ _).handOff.epistle = _
      simp only [moveGenerator, hlife]
    | mark v pc =>
      rcases hstep.marks_worker hmove h hlife with ⟨pc', -, heq, -⟩ | ⟨-, htouches, hplaced, hholds⟩
      · exact hsame heq
      · by_cases hv : w = v
        · exact hv ▸ not_idle_of_runnable hplaced hholds
        · exact htouch v hv htouches
  · obtain ⟨thread, signal⟩ := action
    have hticked := (h.closed hclosed).tick hstep.1
    obtain ⟨-, rfl⟩ := hstep
    cases thread with
    | generator => exact absurd rfl hmove
    | main =>
      apply hsame
      rcases moveMain_handOff signal { s with handOff := { s.handOff with clock := signal.now } } with heq | heq
      · refine (congrArg HandOff.epistle heq).trans ?_
        unfold HandOff.moveMain
        repeat' split
        all_goals rfl
      · exact (congrArg HandOff.epistle heq :)
    | worker v =>
      have hv : w ≠ v := fun heq => hother (heq ▸ rfl)
      rcases moveWorker_handOff v signal.now { s with handOff := { s.handOff with clock := signal.now } } with heq | heq
      · apply htouch v hv
        have hepistle := congrArg HandOff.epistle heq
        change (s.move (.worker v) signal).handOff.epistle = _ at hepistle
        rw [hepistle]
        exact (hticked.worker v).2
      · exact hsame (congrArg HandOff.epistle heq :)

/-- How many workers the generator marks up to `w`, from `v` on. -/
def marksTo (w v : Fin S.numWorkers) : Nat := if v ≤ w then w + 1 - v else S.numWorkers - v + (w + 1)

/-- The generator has marked the worker `w` after `n` accesses. -/
def MarkAhead (w : Fin S.numWorkers) (n : ℕ) (s : Experiment S capacity) : Prop :=
  s.generator = .head ∧ (w + 1) * (callAccesses capacity + 1) + 1 ≤ n ∨
  ∃ v pc count, s.generator = .mark v pc ∧
    Bounded s.handOff.epistle.occ count (.adding (S.tid v) epistleThreadRunnable pc) ∧
    marksTo w v * (callAccesses capacity + 1) ≤ n + count

theorem markAhead_exists (hlively : Lively s) {w : Fin S.numWorkers} (hclosed : s.generator ≠ .working)
    (hnot : s.generator ≠ .exited) : ∃ n, MarkAhead w n s := by
  cases hlife : s.generator with
  | working => exact absurd hlife hclosed
  | exited => exact absurd hlife hnot
  | head => exact ⟨_, .inl ⟨hlife, Nat.le_refl _⟩⟩
  | mark v pc =>
    obtain ⟨count, hbounded⟩ := hlively.marking v pc hlife
    exact ⟨_, .inr ⟨v, pc, count, hlife, hbounded, Nat.le_add_right _ _⟩⟩

/-- Each access of the generator brings it nearer to its mark of the worker `w`. -/
theorem Step.mark_ahead {n : ℕ} {w : Fin S.numWorkers} (hstep : Step s action t) (hmove : action.1 = .generator)
    (hs : Sound s) (ht : Sound t) (hexit : s.exitGenerator = false) (hthere : s.worker w ≠ .exited)
    (hahead : MarkAhead w n s) :
    Ready (.worker w) t ∨ ∃ m < n, MarkAhead w m t := by
  obtain ⟨slot, hfree'⟩ := ht.free
  have hfree := hstep.free_before hfree'
  -- the next worker, or the head of the loop
  have hnext : ∀ {k m : ℕ} (hlife : t.generator = nextMark S k),
      (∀ hk : k < S.numWorkers, marksTo w ⟨k, hk⟩ * (callAccesses capacity + 1) ≤ m) →
      (¬ k < S.numWorkers → (w + 1) * (callAccesses capacity + 1) + 1 ≤ m) → MarkAhead w m t := by
    intro k m hlife hmark hhead
    unfold nextMark at hlife
    split at hlife
    · rename_i hk
      exact .inr ⟨_, _, 0, hlife, .start t.handOff.epistle.occ _, hmark hk⟩
    · rename_i hk
      exact .inl ⟨hlife, hhead hk⟩
  rcases hahead with ⟨hhead, hn⟩ | ⟨v, pc, count, hmark, hbounded, hn⟩
  · right
    have hlife : t.generator = nextMark S 0 := by
      obtain ⟨thread, signal⟩ := action
      obtain ⟨-, rfl⟩ := hstep
      obtain rfl : thread = .generator := hmove
      show (moveGenerator _ _).generator = _
      simp only [moveGenerator, hhead, hexit, Bool.false_eq_true, if_false]
    refine ⟨n - 1, by omega, hnext hlife (fun hk => ?_) fun hk => absurd (Nat.zero_lt_of_lt w.isLt) hk⟩
    have hmarks : marksTo w ⟨0, hk⟩ = w + 1 := if_pos (Nat.zero_le w.val)
    rw [hmarks]
    omega
  · have hcount := count_lt hbounded (by simp) hfree
    have hmarks : 0 < marksTo w v := by
      unfold marksTo
      split <;> omega
    obtain ⟨rest, hrest⟩ : ∃ rest, marksTo w v = rest + 1 := ⟨marksTo w v - 1, by omega⟩
    rw [hrest, Nat.succ_mul] at hn
    rcases hstep.marks_worker hmove hs.inv hmark with ⟨pc', hmark', heq, hadd, hnot⟩ | ⟨hlife, -, hplaced, hholds⟩
    · right
      have hbounded' := (adding_cases (S.tid_ne_zero v) hbounded hadd hfree).resolve_left fun hdone => hnot hdone.1
      refine ⟨n - 1, by omega, .inr ⟨v, pc', count + 1, hmark', heq.symm ▸ hbounded'.2, ?_⟩⟩
      rw [hrest, Nat.succ_mul]
      omega
    · by_cases hv : v = w
      · have hworker : action.1 ≠ .worker w := fun heq => by simp [hmove] at heq
        exact .inl ⟨(hstep.worker_frame hworker).1 ▸ hthere, hv ▸ not_idle_of_runnable hplaced hholds⟩
      · right
        have hne : v.val ≠ w.val := fun heq => hv (Fin.ext heq)
        refine ⟨n - 1, by omega, hnext hlife (fun hk => ?_) fun hk => ?_⟩
        · have hmarks' : marksTo w ⟨v + 1, hk⟩ = rest := by
            simp only [marksTo, Fin.le_def] at hrest ⊢
            split at hrest <;> split <;> omega
          rw [hmarks']
          omega
        · have hmarks' : rest = w + 1 := by
            simp only [marksTo, Fin.le_def] at hrest
            split at hrest <;> omega
          rw [← hmarks']
          omega

end Experiment

end Workload

end CosUserspace
