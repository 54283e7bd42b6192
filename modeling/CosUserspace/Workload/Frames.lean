import CosUserspace.Workload.Lively

/-!
# What a step leaves as it was

Each thread has its own words; the others leave them alone. The locks, the flags, the joins and the exits are for good: once there, they stay in every step.
-/

namespace CosUserspace

namespace Workload

variable {capacity : Nat} [NeZero capacity] {S : Setup}

namespace Experiment

variable {s t : Experiment S capacity} {action : Thread S.numWorkers × Signal}

/-! ### Who changes what -/

theorem Step.main_frame (hstep : Step s action t) (hother : action.1 ≠ .main) :
    t.main = s.main ∧ t.handOff.main = s.handOff.main ∧ t.exitAll = s.exitAll ∧ t.exitGenerator = s.exitGenerator := by
  obtain ⟨thread, signal⟩ := action
  obtain ⟨-, rfl⟩ := hstep
  cases thread with
  | main => exact absurd rfl hother
  | worker w =>
    show (moveWorker w _ _).main = _ ∧ (moveWorker w _ _).handOff.main = _ ∧ (moveWorker w _ _).exitAll = _ ∧
      (moveWorker w _ _).exitGenerator = _
    cases hworker : s.worker w <;> simp [moveWorker, hworker, HandOff.moveWorker, HandOff.setDesk]
  | generator =>
    show (moveGenerator _ _).main = _ ∧ (moveGenerator _ _).handOff.main = _ ∧ (moveGenerator _ _).exitAll = _ ∧
      (moveGenerator _ _).exitGenerator = _
    unfold moveGenerator
    cases s.generator with
    | working =>
      dsimp only
      split
      · exact ⟨rfl, rfl, rfl, rfl⟩
      · exact ⟨rfl, (HandOff.moveGenerator_frame _).2, rfl, rfl⟩
    | head | exited => exact ⟨rfl, rfl, rfl, rfl⟩
    | mark w pc =>
      dsimp only
      split <;> exact ⟨rfl, rfl, rfl, rfl⟩

/-- The generator takes the start time from the clock, and nobody else changes it. -/
theorem Step.startTime_cases (hstep : Step s action t) : t.startTime = s.startTime ∨ t.startTime = action.2.now := by
  obtain ⟨thread, signal⟩ := action
  obtain ⟨-, rfl⟩ := hstep
  cases thread with
  | main =>
    left
    show (moveMain _ _).startTime = _
    rcases moveMain_cases signal { s with handOff := { s.handOff with clock := signal.now } } with
      ⟨-, -, hmove⟩ | ⟨_, _, _, _, -, -, hmove⟩ <;> rw [hmove]
  | worker w =>
    left
    show (moveWorker w _ _).startTime = _
    cases hworker : s.worker w <;> simp only [moveWorker, hworker]
  | generator =>
    show (moveGenerator _ _).startTime = _ ∨ (moveGenerator _ _).startTime = _
    unfold moveGenerator
    cases s.generator with
    | working =>
      dsimp only
      split
      · exact .inl rfl
      · dsimp only
        split
        · exact .inr rfl
        · exact .inl rfl
    | head | exited => exact .inl rfl
    | mark w pc =>
      dsimp only
      split <;> exact .inl rfl

theorem Step.runtime_frame (hstep : Step s action t) (hother : action.1 ≠ .main) :
    t.main = s.main ∧ t.runtime = s.runtime := by
  refine ⟨(hstep.main_frame hother).1, ?_⟩
  obtain ⟨thread, signal⟩ := action
  obtain ⟨-, rfl⟩ := hstep
  cases thread with
  | main => exact absurd rfl hother
  | worker w =>
    show (moveWorker w _ _).runtime = _
    cases hworker : s.worker w <;> simp only [moveWorker, hworker]
  | generator =>
    show (moveGenerator _ _).runtime = _
    unfold moveGenerator
    cases s.generator with
    | working =>
      dsimp only
      split <;> rfl
    | head | exited => rfl
    | mark w pc =>
      dsimp only
      split <;> rfl

theorem Step.worker_frame (hstep : Step s action t) {w : Fin S.numWorkers} (hother : action.1 ≠ .worker w) :
    t.worker w = s.worker w ∧ t.late w = s.late w ∧ (t.handOff.desk w).lock = (s.handOff.desk w).lock ∧
      t.spent w = s.spent w := by
  obtain ⟨thread, signal⟩ := action
  obtain ⟨-, rfl⟩ := hstep
  cases thread with
  | main =>
    show (moveMain _ _).worker w = _ ∧ (moveMain _ _).late w = _ ∧ ((moveMain _ _).handOff.desk w).lock = _ ∧
      (moveMain _ _).spent w = _
    rcases moveMain_cases signal { s with handOff := { s.handOff with clock := signal.now } } with
      ⟨-, -, hmove⟩ | ⟨_, _, _, _, -, -, hmove⟩
    · rw [hmove]
      exact ⟨rfl, rfl, HandOff.moveMain_lock.1 w, rfl⟩
    · rw [hmove]
      exact ⟨rfl, rfl, rfl, rfl⟩
  | worker v =>
    have hv : w ≠ v := fun heq => hother (heq ▸ rfl)
    show (moveWorker v _ _).worker w = _ ∧ (moveWorker v _ _).late w = _ ∧
      ((moveWorker v _ _).handOff.desk w).lock = _ ∧ (moveWorker v _ _).spent w = _
    have hlate : ∀ {late : Nat}, (if s.exitAll then Function.update s.late v late else s.late) w = s.late w := by
      intro late
      split
      · exact Function.update_of_ne hv ..
      · rfl
    cases hworker : s.worker v with
    | exited =>
      simp only [moveWorker, hworker]
      exact ⟨trivial, trivial, trivial, trivial⟩
    | head =>
      simp only [moveWorker, hworker]
      exact ⟨Function.update_of_ne hv .., hlate, trivial, Function.update_of_ne hv ..⟩
    | inside =>
      simp only [moveWorker, hworker]
      exact ⟨Function.update_of_ne hv .., hlate, congrArg Desk.lock (Function.update_of_ne hv ..),
        Function.update_of_ne hv ..⟩
  | generator =>
    show (moveGenerator _ _).worker w = _ ∧ (moveGenerator _ _).late w = _ ∧
      ((moveGenerator _ _).handOff.desk w).lock = _ ∧ (moveGenerator _ _).spent w = _
    unfold moveGenerator
    cases s.generator with
    | working =>
      dsimp only
      split
      · exact ⟨rfl, rfl, rfl, rfl⟩
      · exact ⟨rfl, rfl, (HandOff.moveGenerator_lock _).1 w, rfl⟩
    | head | exited => exact ⟨rfl, rfl, rfl, rfl⟩
    | mark v pc =>
      dsimp only
      split <;> exact ⟨rfl, rfl, rfl, rfl⟩

theorem Step.generator_frame (hstep : Step s action t) (hother : action.1 ≠ .generator) :
    t.generator = s.generator ∧ t.handOff.generator = s.handOff.generator := by
  obtain ⟨thread, signal⟩ := action
  obtain ⟨-, rfl⟩ := hstep
  cases thread with
  | generator => exact absurd rfl hother
  | worker w =>
    show (moveWorker w _ _).generator = _ ∧ (moveWorker w _ _).handOff.generator = _
    cases hworker : s.worker w <;> simp [moveWorker, hworker, HandOff.moveWorker, HandOff.setDesk]
  | main =>
    show (moveMain _ _).generator = _ ∧ (moveMain _ _).handOff.generator = _
    rcases moveMain_cases signal { s with handOff := { s.handOff with clock := signal.now } } with
      ⟨-, -, hmove⟩ | ⟨_, _, _, _, -, -, hmove⟩
    · rw [hmove]
      exact ⟨rfl, HandOff.moveMain_lock.2.1⟩
    · rw [hmove]
      exact ⟨rfl, rfl⟩

/-! ### What stays -/

theorem Step.lock_stays (hstep : Step s action t) {w : Fin S.numWorkers} (hlock : (s.handOff.desk w).lock = true) :
    (t.handOff.desk w).lock = true := by
  by_cases hworker : action.1 = .worker w
  · obtain ⟨thread, signal⟩ := action
    obtain ⟨-, rfl⟩ := hstep
    obtain rfl : thread = .worker w := hworker
    show ((moveWorker w _ _).handOff.desk w).lock = true
    cases hlife : s.worker w with
    | head | exited => simpa only [moveWorker, hlife] using hlock
    | inside =>
      have hself : (({ s.handOff with clock := signal.now } : HandOff S capacity).moveWorker w signal.now).desk w =
          ((s.handOff.desk w).move S.batch (S.tid w) signal.now s.handOff.epistle).2 := Function.update_self ..
      simp only [moveWorker, hlife]
      rw [hself]
      rcases Desk.move_lock S.batch (S.tid w) signal.now s.handOff.epistle (s.handOff.desk w) with hset | ⟨hsame, -⟩
      · exact hset
      · rw [hsame, hlock]
  · rw [(hstep.worker_frame hworker).2.2.1, hlock]

theorem Step.exited_stays (hstep : Step s action t) {w : Fin S.numWorkers} (hexited : s.worker w = .exited) :
    t.worker w = .exited := by
  by_cases hworker : action.1 = .worker w
  · obtain ⟨thread, signal⟩ := action
    obtain ⟨-, rfl⟩ := hstep
    obtain rfl : thread = .worker w := hworker
    show (moveWorker w _ _).worker w = .exited
    simp only [moveWorker, hexited]
  · rw [(hstep.worker_frame hworker).1, hexited]

theorem Step.exitAll_stays (hstep : Step s action t) (hexit : s.exitAll = true) : t.exitAll = true := by
  by_cases hmain : action.1 = .main
  · obtain ⟨thread, signal⟩ := action
    obtain ⟨-, rfl⟩ := hstep
    obtain rfl : thread = .main := hmain
    show (moveMain _ _).exitAll = true
    rcases moveMain_cases signal { s with handOff := { s.handOff with clock := signal.now } } with
      ⟨-, -, hmove⟩ | ⟨_, _, _, _, hset, -, hmove⟩
    · rw [hmove]
      exact hexit
    · rw [hmove]
      exact hset hexit
  · rw [(hstep.main_frame hmain).2.2.1, hexit]

/-- `main` sets `exit_generator` on its way from the workers to the generator. -/
theorem Step.exitGenerator_eq (hstep : Step s action t) (h : s.exitGenerator = s.main.joinedWorkers) :
    t.exitGenerator = t.main.joinedWorkers := by
  by_cases hmain : action.1 = .main
  · obtain ⟨thread, signal⟩ := action
    obtain ⟨-, rfl⟩ := hstep
    obtain rfl : thread = .main := hmain
    show (moveMain _ _).exitGenerator = (moveMain _ _).main.joinedWorkers
    unfold moveMain
    cases hpc : s.main with
    | running =>
      rw [hpc] at h
      dsimp only
      split
      · split
        · exact h
        · simpa only [hpc] using h
      · simpa only [hpc] using h
    | print again =>
      rw [hpc] at h
      cases again with
      | false => exact h.trans (printed_cases S.options s.startTime _ signal.found false).2.1.symm
      | true => exact h.trans (printed_cases S.options s.startTime s.runtime s.requests true).2.1.symm
    | join i =>
      rw [hpc] at h
      dsimp only
      split
      · split
        · exact h
        · simpa only [hpc] using h
      · rfl
    | joinGenerator =>
      rw [hpc] at h
      dsimp only
      split
      · exact h
      · simpa only [hpc] using h
    | finished | stopped again stop => simpa only [hpc] using h
  · obtain ⟨hpc, -, -, hexit⟩ := hstep.main_frame hmain
    rw [hpc, hexit]
    exact h

theorem Step.exitGenerator_stays (hstep : Step s action t) (hexit : s.exitGenerator = true) :
    t.exitGenerator = true := by
  by_cases hmain : action.1 = .main
  · obtain ⟨thread, signal⟩ := action
    obtain ⟨-, rfl⟩ := hstep
    obtain rfl : thread = .main := hmain
    show (moveMain _ _).exitGenerator = true
    rcases moveMain_cases signal { s with handOff := { s.handOff with clock := signal.now } } with
      ⟨-, -, hmove⟩ | ⟨_, _, _, _, -, hset, hmove⟩
    · rw [hmove]
      exact hexit
    · rw [hmove]
      exact hset hexit
  · rw [(hstep.main_frame hmain).2.2.2, hexit]

omit [NeZero capacity] in
/-- `main` is done with setting up, and stays so. -/
theorem moveMain_done {s : HandOff S capacity} (hdone : s.main = .done) : s.moveMain = s := by
  simp only [HandOff.moveMain, hdone]

theorem Step.done_stays (hstep : Step s action t) (hdone : s.handOff.main = .done) : t.handOff.main = .done := by
  by_cases hmain : action.1 = .main
  · obtain ⟨thread, signal⟩ := action
    obtain ⟨-, rfl⟩ := hstep
    obtain rfl : thread = .main := hmain
    have hkeep := moveMain_done (s := { s.handOff with clock := signal.now }) hdone
    rcases moveMain_handOff signal { s with handOff := { s.handOff with clock := signal.now } } with h | h
    · exact (congrArg HandOff.main (h.trans hkeep)).trans hdone
    · exact (congrArg HandOff.main h).trans hdone
  · rw [(hstep.main_frame hmain).2.1, hdone]

theorem Step.not_working_stays (hstep : Step s action t) (hnot : s.generator ≠ .working) : t.generator ≠ .working := by
  by_cases hgenerator : action.1 = .generator
  · obtain ⟨thread, signal⟩ := action
    obtain ⟨-, rfl⟩ := hstep
    obtain rfl : thread = .generator := hgenerator
    show (moveGenerator _ _).generator ≠ .working
    unfold moveGenerator
    cases hlife : s.generator with
    | working => exact absurd hlife hnot
    | head =>
      dsimp only
      split
      · simp
      · exact Inv.nextMark_ne_working 0
    | mark w pc =>
      dsimp only
      split
      · exact Inv.nextMark_ne_working _
      · simp
    | exited =>
      dsimp only
      simp
  · rw [(hstep.generator_frame hgenerator).1]
    exact hnot

theorem Step.generator_exited_stays (hstep : Step s action t) (hexited : s.generator = .exited) :
    t.generator = .exited := by
  by_cases hgenerator : action.1 = .generator
  · obtain ⟨thread, signal⟩ := action
    obtain ⟨-, rfl⟩ := hstep
    obtain rfl : thread = .generator := hgenerator
    show (moveGenerator _ _).generator = .exited
    simp only [moveGenerator, hexited]
  · rw [(hstep.generator_frame hgenerator).1, hexited]

theorem Step.stopped_stays (hstep : Step s action t) {w : Fin S.numWorkers} (hstopped : s.handOff.generator = .stopped w) :
    t.handOff.generator = .stopped w := by
  by_cases hgenerator : action.1 = .generator
  · obtain ⟨thread, signal⟩ := action
    obtain ⟨-, rfl⟩ := hstep
    obtain rfl : thread = .generator := hgenerator
    rcases moveGenerator_handOff signal.toInput { s with handOff := { s.handOff with clock := signal.now } } with
      h | ⟨epistle, h⟩
    · refine (congrArg HandOff.generator h).trans ?_
      simp only [HandOff.moveGenerator, hstopped]
    · exact (congrArg HandOff.generator h).trans hstopped
  · rw [(hstep.generator_frame hgenerator).2, hstopped]

/-- `main` sets up workers that there are. -/
theorem Step.insert_lt (hstep : Step s action t) (h : ∀ k, s.handOff.main = .insert k → k < S.numWorkers) (k : Nat)
    (hpc : t.handOff.main = .insert k) : k < S.numWorkers := by
  by_cases hmain : action.1 = .main
  · obtain ⟨thread, signal⟩ := action
    obtain ⟨-, rfl⟩ := hstep
    obtain rfl : thread = .main := hmain
    have hinsert : ∀ k, (({ s.handOff with clock := signal.now } : HandOff S capacity).moveMain).main = .insert k →
        k < S.numWorkers := by
      intro k hk
      unfold HandOff.moveMain at hk
      cases hhand : s.handOff.main with
      | wait i =>
        simp only [hhand] at hk
        split at hk
        · rename_i hi
          split at hk
          · obtain rfl := MainPc.insert.inj hk
            exact hi
          · cases hk
        · cases hk
      | insert i =>
        simp only [hhand] at hk
        split at hk
        · cases hk
        · have hsame : MainPc.insert i = .insert k := hk
          exact h k (hhand.trans hsame)
      | release => simp [hhand] at hk
      | done => simp [hhand] at hk
    change (moveMain _ _).handOff.main = .insert k at hpc
    rcases moveMain_cases signal { s with handOff := { s.handOff with clock := signal.now } } with
      ⟨-, -, hmove⟩ | ⟨_, _, _, _, -, -, hmove⟩
    · rw [hmove] at hpc
      exact hinsert k hpc
    · rw [hmove] at hpc
      exact h k hpc
  · rw [(hstep.main_frame hmain).2.1] at hpc
    exact h k hpc

/-- The generator exits at the head of its second loop. -/
theorem Step.generator_exited_of (hstep : Step s action t) (hexited : t.generator = .exited) :
    s.generator = .exited ∨ s.exitGenerator = true := by
  by_cases hgenerator : action.1 = .generator
  · obtain ⟨thread, signal⟩ := action
    obtain ⟨-, rfl⟩ := hstep
    obtain rfl : thread = .generator := hgenerator
    change (moveGenerator _ _).generator = .exited at hexited
    have hmark : ∀ i, (nextMark S i : GeneratorLife S.numWorkers capacity) ≠ .exited := by
      intro i
      unfold nextMark
      split <;> simp
    unfold moveGenerator at hexited
    cases hlife : s.generator with
    | working =>
      simp only [hlife] at hexited
      split at hexited
      · cases hexited
      · cases hexited
    | head =>
      simp only [hlife] at hexited
      split at hexited
      · rename_i hexit
        exact .inr hexit
      · exact absurd hexited (hmark 0)
    | mark w pc =>
      simp only [hlife] at hexited
      split at hexited
      · exact absurd hexited (hmark _)
      · cases hexited
    | exited => exact .inl rfl
  · exact .inl ((hstep.generator_frame hgenerator).1.symm.trans hexited)

/-- What holds in every state of a run. -/
structure Tracked (s : Experiment S capacity) : Prop where
  sound : Sound s
  insert_lt : ∀ k, s.handOff.main = .insert k → k < S.numWorkers
  exitGenerator_eq : s.exitGenerator = s.main.joinedWorkers
  exited : s.generator = .exited → s.exitGenerator = true

theorem tracked_of_runs {e : Epistle UInt32 capacity} (hroom : Roomy S e)
    {actions : List (Thread S.numWorkers × Signal)} (hrun : Runs SettledStep (Experiment.init S e) actions s) :
    Tracked s := by
  have hexits : s.exitGenerator = s.main.joinedWorkers ∧ (s.generator = .exited → s.exitGenerator = true) := by
    apply hrun.invariant (P := fun s => s.exitGenerator = s.main.joinedWorkers ∧
      (s.generator = .exited → s.exitGenerator = true))
    · exact ⟨rfl, fun hexited => by cases hexited⟩
    · intro s action t h hstep
      obtain ⟨heq, hexited⟩ := h
      refine ⟨hstep.1.exitGenerator_eq heq, fun hgenerator => hstep.1.exitGenerator_stays ?_⟩
      exact (hstep.1.generator_exited_of hgenerator).elim hexited id
  have hinsert : ∀ k, s.handOff.main = .insert k → k < S.numWorkers :=
    hrun.invariant (P := fun s => ∀ k, s.handOff.main = .insert k → k < S.numWorkers)
      (fun _ hpc => by cases hpc) fun _ _ _ h hstep => hstep.1.insert_lt h
  exact ⟨sound_of_runs hroom hrun, hinsert, hexits.1, hexits.2⟩

/-- As long as a worker has not exited, nobody tells the generator to. -/
theorem Tracked.generator_goes (h : Tracked s) {w : Fin S.numWorkers} (hnot : s.worker w ≠ .exited) :
    s.exitGenerator = false ∧ s.generator ≠ .exited := by
  have hexit : s.exitGenerator = false := by
    rw [← Bool.not_eq_true]
    intro hexit
    exact hnot (h.sound.inv.joined.workers (h.exitGenerator_eq.symm.trans hexit) w)
  refine ⟨hexit, fun hexited => ?_⟩
  rw [h.exited hexited] at hexit
  cases hexit

end Experiment

end Workload

end CosUserspace
