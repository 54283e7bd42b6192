import CosUserspace.Workload.Found
import CosUserspace.Workload.Termination

/-!
# Every request is handled

As long as nobody is told to exit, each request that the generator has put into the vector of a worker is handled and recorded in the end, in every fair run, though a worker that is marked IDLE may not be run at all. The generator leaves the worker within a round, and then the batch, if there is one, is with the worker, which sees its mark as RUNNABLE at its next look at the epistle and does not go back to the head of its loop before it is through with the batch.
-/

namespace CosUserspace

namespace Workload

variable {capacity : Nat} [NeZero capacity] {S : Setup}

/-! ### The desk while the generator is elsewhere -/

namespace DeskInv

variable {batch : Nat} {key : Int32} {e : Epistle UInt32 capacity} {clock : UInt64} {d : Desk capacity}

/-- Without a batch, everything is recorded. -/
theorem recorded_all (h : DeskInv batch key e clock .away d) (hnum : d.numRequests = 0) :
    d.recorded.map (·.toArrival) = d.polled := by
  obtain ⟨past, hpolled, -, hrecorded⟩ := h.log
  have hbatch : d.batchOf .away = [] := if_pos hnum
  rw [hbatch, List.append_nil] at hpolled
  rw [hbatch, List.take_nil, List.append_nil] at hrecorded
  rw [hpolled, hrecorded]

/-- With a batch, the worker is marked RUNNABLE. -/
theorem running_of_num (h : DeskInv batch key e clock .away d) (hnum : d.numRequests ≠ 0) :
    (d.pc.Polling ∨ d.pc.Busy) ∧ e.Holds key epistleThreadRunnable := by
  cases h.turn with
  | starting _ _ hzero | idle _ _ _ hzero | released _ _ hzero => exact absurd hzero hnum
  | running hpc hholds => exact ⟨hpc, hholds⟩

theorem away_of_num {stage : Stage} (h : DeskInv batch key e clock stage d) (hnum : d.numRequests ≠ 0)
    (hnot : stage ≠ .handing) : stage = .away := by
  cases h.turn with
  | starting | running | released => rfl
  | idle _ _ _ hzero => exact absurd hzero hnum
  | loaded => exact absurd rfl hnot

/-- The worker goes on until it is through with the batch. -/
theorem not_loops (h : DeskInv batch key e clock .away d) (hnum : d.numRequests ≠ 0) : d.loops key e = false := by
  obtain ⟨hpc, hholds⟩ := h.running_of_num hnum
  cases hcase : d.pc with
  | register add | retire add =>
    rw [hcase] at hpc
    exact absurd hpc (not_or.mpr ⟨id, id⟩)
  | poll get =>
    have hnot : epistleThreadRunnable ≠ epistleThreadIdle := by decide
    rcases Epistle.getMove_holds h.placed hholds (h.access_at hcase) with ⟨get', hmove, -⟩ | hmove
    · simp [Desk.loops, hcase, hmove]
    · simp [Desk.loops, hcase, hmove, hnot]
  | load => simp [Desk.loops, hcase, hnum]
  | _ => simp only [Desk.loops, hcase]

end DeskInv

/-- The generator is not at the worker, or it has just found it idle. -/
def GeneratorPc.Elsewhere {n : ℕ} (v : Fin n) (pc : GeneratorPc n capacity) : Prop :=
  pc.stage v = .away ∨ pc = .expectZero v

omit [NeZero capacity] in
theorem GeneratorPc.Elsewhere.ne_handing {n : ℕ} {v : Fin n} {pc : GeneratorPc n capacity} (h : pc.Elsewhere v) :
    pc.stage v ≠ .handing := by
  rcases h with hstage | rfl
  · rw [hstage]
    exact fun heq => by cases heq
  · simp [GeneratorPc.stage]

namespace HandOff

variable {s : HandOff S capacity}

/-- The generator changes no desk but that of the worker it is at, and it comes to a worker when it finds it idle. -/
theorem moveGenerator_away (input : Input) {v : Fin S.numWorkers} (hstage : s.generator.stage v = .away) :
    (s.moveGenerator input).desk v = s.desk v ∧ (s.moveGenerator input).generator.Elsewhere v := by
  have hother : ∀ w, s.generator.stage w ≠ .away → v ≠ w := by
    intro w hw heq
    exact hw (heq ▸ hstage)
  -- the generator goes on with another worker
  have hserves : ∀ {w : Fin S.numWorkers} {st : Stage}, v ≠ w → (if w = v then st else .away) = Stage.away :=
    fun hne => if_neg (Ne.symm hne)
  unfold moveGenerator
  cases hpc : s.generator with
  | launch => exact ⟨rfl, .inl rfl⟩
  | stopped w | failed => exact ⟨rfl, .inl hstage⟩
  | wait =>
    dsimp only
    split
    · exact ⟨rfl, .inl rfl⟩
    · exact ⟨rfl, .inl hstage⟩
  | enter i =>
    dsimp only
    split <;> exact ⟨rfl, .inl rfl⟩
  | look w get =>
    dsimp only
    split
    · exact ⟨rfl, .inl rfl⟩
    · split
      · exact ⟨rfl, .inl rfl⟩
      · by_cases hv : v = w
        · exact ⟨rfl, .inr (hv ▸ rfl)⟩
        · exact ⟨rfl, .inl (hserves hv)⟩
  | receive w k arrival | assign w k request =>
    have hne := hother w (by simp [hpc, GeneratorPc.stage])
    exact ⟨rfl, .inl (hserves hne)⟩
  | confirm w get =>
    have hne := hother w (by simp [hpc, GeneratorPc.stage])
    dsimp only
    split
    · exact ⟨rfl, .inl (hserves hne)⟩
    · split
      · exact ⟨rfl, .inl (hserves hne)⟩
      · exact ⟨rfl, .inl rfl⟩
  | hand w add =>
    have hne := hother w (by simp [hpc, GeneratorPc.stage])
    dsimp only
    split
    · exact ⟨rfl, .inl rfl⟩
    · exact ⟨rfl, .inl (hserves hne)⟩
  | arrive w k =>
    have hne := hother w (by simp [hpc, GeneratorPc.stage])
    dsimp only
    split
    · exact ⟨rfl, .inl (hserves hne)⟩
    · split <;> exact ⟨rfl, .inl (hserves hne)⟩
  | expectZero w | bound w =>
    have hne := hother w (by simp [hpc, GeneratorPc.stage])
    apply withWork_of (P := fun t => t.desk v = s.desk v ∧ t.generator.Elsewhere v) ⟨rfl, .inl rfl⟩
    intro work
    split
    · exact ⟨rfl, .inl (hserves hne)⟩
    · exact ⟨rfl, .inl rfl⟩
  | testEmpty w =>
    have hne := hother w (by simp [hpc, GeneratorPc.stage])
    apply withWork_of (P := fun t => t.desk v = s.desk v ∧ t.generator.Elsewhere v) ⟨rfl, .inl rfl⟩
    intro work
    split
    · exact ⟨rfl, .inl rfl⟩
    · exact ⟨rfl, .inl (hserves hne)⟩
  | measure w =>
    have hne := hother w (by simp [hpc, GeneratorPc.stage])
    apply withWork_of (P := fun t => t.desk v = s.desk v ∧ t.generator.Elsewhere v) ⟨rfl, .inl rfl⟩
    intro work
    exact ⟨rfl, .inl (hserves hne)⟩
  | store w num =>
    have hne := hother w (by simp [hpc, GeneratorPc.stage])
    apply withWork_of (P := fun t => t.desk v = s.desk v ∧ t.generator.Elsewhere v) ⟨rfl, .inl rfl⟩
    intro work
    exact ⟨setDesk_desk_of_ne hne _, .inl (hserves hne)⟩
  | clear w | push w k request =>
    have hne := hother w (by simp [hpc, GeneratorPc.stage])
    apply withWork_of (P := fun t => t.desk v = s.desk v ∧ t.generator.Elsewhere v) ⟨rfl, .inl rfl⟩
    intro work
    refine ⟨setDesk_desk_of_ne hne _, .inl ?_⟩
    show (nextPoll S w _).stage v = .away
    rw [Inv.stage_nextPoll]
    exact hserves hne

omit [NeZero capacity] in
theorem moveMain_polled (v : Fin S.numWorkers) : (s.moveMain.desk v).polled = (s.desk v).polled := by
  unfold moveMain
  split
  · split
    · split <;> rfl
    · rfl
  · split
    · show ((s.setDesk _ _).desk v).polled = _
      apply Polled.setDesk_polled
      rfl
    · rfl
  · rfl
  · rfl

/-- The generator takes nothing off the list of what was polled. -/
theorem moveGenerator_polled (input : Input) (v : Fin S.numWorkers) :
    (s.desk v).polled <+: ((s.moveGenerator input).desk v).polled := by
  have hsame : ∀ {w : Fin S.numWorkers} {d : Desk capacity}, d.polled = (s.desk w).polled →
      (s.desk v).polled <+: ((s.setDesk w d).desk v).polled := fun hd => by
    rw [Polled.setDesk_polled hd]
  unfold moveGenerator
  cases hpc : s.generator with
  | launch | receive | assign | stopped | failed => exact List.prefix_refl _
  | wait | enter =>
    dsimp only
    split <;> exact List.prefix_refl _
  | look w get | confirm w get =>
    dsimp only
    split
    · exact List.prefix_refl _
    · split <;> exact List.prefix_refl _
  | arrive w k =>
    dsimp only
    split
    · exact List.prefix_refl _
    · split <;> exact List.prefix_refl _
  | hand w add =>
    dsimp only
    split <;> exact List.prefix_refl _
  | expectZero w | testEmpty w | bound w =>
    apply withWork_of (P := fun t => (s.desk v).polled <+: (t.desk v).polled) (List.prefix_refl _)
    intro work
    split <;> exact List.prefix_refl _
  | measure w =>
    apply withWork_of (P := fun t => (s.desk v).polled <+: (t.desk v).polled) (List.prefix_refl _)
    intro work
    exact List.prefix_refl _
  | clear w | store w num =>
    apply withWork_of (P := fun t => (s.desk v).polled <+: (t.desk v).polled) (List.prefix_refl _)
    intro work
    exact hsame rfl
  | push w k request =>
    apply withWork_of (P := fun t => (s.desk v).polled <+: (t.desk v).polled) (List.prefix_refl _)
    intro work
    by_cases hv : v = w
    · subst hv
      refine ⟨[request.toArrival], ?_⟩
      show _ = (Function.update s.desk v _ v).polled
      rw [Function.update_self]
      rfl
    · show _ <+: ((s.setDesk w _).desk v).polled
      rw [setDesk_desk_of_ne hv]

end HandOff

/-- The ingress queue has started, and its assert has not failed. -/
def GeneratorPc.Launched {n : ℕ} : GeneratorPc n capacity → Prop
  | .wait | .launch | .stopped _ => False
  | _ => True

/-- The assert of the ingress queue fails at the arrival time zero only, and the arrival time goes on when an arrival is taken out of the queue. -/
theorem HandOff.moveGenerator_launched {s : HandOff S capacity} (input : Input) (hlaunched : s.generator.Launched) :
    ((s.moveGenerator input).generator.Launched ∨
      s.start = 0 ∧ ∃ w, (s.moveGenerator input).generator = .stopped w) ∧
    ((s.moveGenerator input).start = s.start ∨
      s.start ≤ input.now ∧ ∃ w k arrival, (s.moveGenerator input).generator = .receive w k arrival) := by
  have hpoll : ∀ w k, (nextPoll S w k : GeneratorPc S.numWorkers capacity).Launched := by
    intro w k
    unfold nextPoll
    split <;> trivial
  let Goes := fun t : HandOff S capacity => (t.generator.Launched ∨ s.start = 0 ∧ ∃ w, t.generator = .stopped w) ∧
    (t.start = s.start ∨ s.start ≤ input.now ∧ ∃ w k arrival, t.generator = .receive w k arrival)
  have hgoes : ∀ {t : HandOff S capacity}, t.generator.Launched → t.start = s.start → Goes t :=
    fun hlaunched hstart => ⟨.inl hlaunched, .inl hstart⟩
  show Goes (s.moveGenerator input)
  unfold moveGenerator
  cases hpc : s.generator with
  | wait | launch | stopped w =>
    rw [hpc] at hlaunched
    exact hlaunched.elim
  | receive | assign => exact hgoes trivial rfl
  | failed => exact hgoes hlaunched rfl
  | enter i =>
    dsimp only
    split <;> exact hgoes trivial rfl
  | look w get | confirm w get =>
    dsimp only
    split
    · exact hgoes trivial rfl
    · split <;> exact hgoes trivial rfl
  | hand w add =>
    dsimp only
    split <;> exact hgoes trivial rfl
  | arrive w k =>
    dsimp only
    split
    · rename_i hzero
      exact ⟨.inr ⟨hzero, w, rfl⟩, .inl rfl⟩
    · split
      · rename_i hdue
        exact ⟨.inl trivial, .inr ⟨hdue, w, k, s.start, rfl⟩⟩
      · exact hgoes trivial rfl
  | expectZero w | testEmpty w | bound w =>
    apply withWork_of (P := Goes) (hgoes trivial rfl)
    intro work
    split <;> exact hgoes trivial rfl
  | measure w | store w num =>
    apply withWork_of (P := Goes) (hgoes trivial rfl)
    intro work
    exact hgoes trivial rfl
  | clear w | push w k request =>
    apply withWork_of (P := Goes) (hgoes trivial rfl)
    intro work
    exact hgoes (hpoll _ _) rfl

namespace Experiment

variable {s t : Experiment S capacity} {action : Thread S.numWorkers × Signal}

theorem move_exitAll {signal : Signal} (hquiet : signal.shouldExit = false) (thread : Thread S.numWorkers) :
    (s.move thread signal).exitAll = s.exitAll := by
  cases thread with
  | worker w =>
    show (moveWorker w _ _).exitAll = _
    cases hworker : s.worker w <;> simp only [moveWorker, hworker]
  | generator =>
    show (moveGenerator _ _).exitAll = _
    unfold moveGenerator
    repeat' split
    all_goals rfl
  | main =>
    show (moveMain _ _).exitAll = _
    simp only [moveMain, hquiet, Bool.false_eq_true, if_false]
    repeat' split
    all_goals rfl

/-- What was polled for a worker stays so. -/
theorem Step.polled_grows (hstep : Step s action t) (w : Fin S.numWorkers) :
    (s.handOff.desk w).polled <+: (t.handOff.desk w).polled := by
  obtain ⟨-, rfl⟩ := hstep
  rcases move_handOff action.1 action.2 s with hmove | ⟨epistle, hmove⟩
  · rw [hmove]
    cases action.1 with
    | main =>
      have hsame := HandOff.moveMain_polled (s := { s.handOff with clock := action.2.now }) w
      exact hsame.symm ▸ List.prefix_refl _
    | generator => exact HandOff.moveGenerator_polled (s := { s.handOff with clock := action.2.now }) action.2.toInput w
    | worker v =>
      have hsame := HandOff.Polled.setDesk_polled (s := { s.handOff with clock := action.2.now })
        (Desk.move_polled S.batch (S.tid v) action.2.now s.handOff.epistle (s.handOff.desk v)) w
      exact hsame.symm ▸ List.prefix_refl _
  · rw [hmove]

/-- The desk of a worker, while it does not move itself and the generator is elsewhere. -/
theorem Step.desk_frame (hstep : Step s action t) {w : Fin S.numWorkers} (hother : action.1 ≠ .worker w)
    (hdone : s.handOff.main = .done) (hstage : s.handOff.generator.stage w = .away) :
    t.handOff.desk w = s.handOff.desk w ∧ t.handOff.generator.Elsewhere w := by
  obtain ⟨thread, signal⟩ := action
  obtain ⟨-, rfl⟩ := hstep
  rcases move_handOff thread signal s with hmove | ⟨epistle, hmove⟩
  · rw [hmove]
    cases thread with
    | main =>
      have hkeep := moveMain_done (s := { s.handOff with clock := signal.now }) hdone
      show (HandOff.moveMain _).desk w = _ ∧ (HandOff.moveMain _).generator.Elsewhere w
      rw [hkeep]
      exact ⟨rfl, .inl hstage⟩
    | generator => exact HandOff.moveGenerator_away (s := { s.handOff with clock := signal.now }) signal.toInput hstage
    | worker v =>
      have hv : w ≠ v := fun heq => hother (heq ▸ rfl)
      exact ⟨HandOff.setDesk_desk_of_ne hv _, .inl hstage⟩
  · rw [hmove]
    exact ⟨rfl, .inl hstage⟩

/-- A worker that is told nothing does not exit, and it begins its round at the head of its loop. -/
theorem Step.own (hstep : Step s action t) {w : Fin S.numWorkers} (hmove : action.1 = .worker w)
    (hopen : s.exitAll = false) (hnot : s.worker w ≠ .exited) :
    t.handOff.generator = s.handOff.generator ∧
      ((s.worker w = .head ∧ t.worker w = .inside ∧ t.spent w = 0 ∧ t.handOff.desk w = s.handOff.desk w) ∨
        (s.worker w = .inside ∧ t.spent w = s.spent w + 1 ∧
          t.worker w = (if (s.handOff.desk w).loops (S.tid w) s.handOff.epistle then .head else .inside) ∧
          t.handOff.desk w =
            ((s.handOff.desk w).move S.batch (S.tid w) action.2.now s.handOff.epistle).2)) := by
  obtain ⟨thread, signal⟩ := action
  obtain ⟨-, rfl⟩ := hstep
  obtain rfl : thread = .worker w := hmove
  show (moveWorker w _ _).handOff.generator = _ ∧ ((_ ∧ (moveWorker w _ _).worker w = _ ∧ (moveWorker w _ _).spent w = _ ∧
    (moveWorker w _ _).handOff.desk w = _) ∨ (_ ∧ (moveWorker w _ _).spent w = _ ∧ (moveWorker w _ _).worker w = _ ∧
    (moveWorker w _ _).handOff.desk w = _))
  cases hlife : s.worker w with
  | exited => exact absurd hlife hnot
  | head =>
    simp only [moveWorker, hlife, hopen]
    exact ⟨trivial, .inl ⟨trivial, Function.update_self .., Function.update_self .., trivial⟩⟩
  | inside =>
    simp only [moveWorker, hlife]
    exact ⟨rfl, .inr ⟨trivial, Function.update_self .., Function.update_self .., Function.update_self ..⟩⟩

/-- The generator moves on in the hand-off. -/
theorem Step.generator_next (hstep : Step s action t) (hmove : action.1 = .generator) (hopen : s.exitAll = false)
    (hworking : s.generator = .working) :
    t.handOff = ({ s.handOff with clock := action.2.now } : HandOff S capacity).moveGenerator action.2.toInput := by
  obtain ⟨thread, signal⟩ := action
  obtain ⟨-, rfl⟩ := hstep
  obtain rfl : thread = .generator := hmove
  show (moveGenerator _ _).handOff = _
  simp [moveGenerator, hworking, hopen]

/-- The generator goes on with its round. -/
theorem Step.goes_on {n : ℕ} (hstep : Step s action t) (hmove : action.1 = .generator) (hs : Sound s) (ht : Sound t)
    (hopen : s.exitAll = false) (hworking : s.generator = .working)
    (hlock : s.handOff.generator = .wait → s.handOff.generatorLock = true) (henter : s.handOff.generator ≠ .enter 0)
    (hstopped : ∀ w, s.handOff.generator ≠ .stopped w) (hahead : Ahead S s.handOff.epistle.occ n s.handOff.generator) :
    ∃ m < n, Ahead S t.handOff.epistle.occ m t.handOff.generator := by
  obtain ⟨slot, hfree'⟩ := ht.free
  have hfree := hstep.free_before hfree'
  rw [hstep.generator_next hmove hopen hworking] at hfree' ⊢
  exact Ahead.move (s := { s.handOff with clock := action.2.now }) hahead hlock henter hstopped hs.inv.not_failed.1
    hfree hfree'

/-! ### A fair run -/

section Fair

variable {e : Epistle UInt32 capacity} (run : FairRun SettledStep Prod.fst Ready (Experiment.init S e))
  (hroom : Roomy S e) (hopen : ∀ i, (run.state i).exitAll = false)
  (hstopped : ∀ i w, (run.state i).handOff.generator ≠ .stopped w) {i : ℕ} {w : Fin S.numWorkers}

include hroom hopen in
theorem working (i : ℕ) : (run.state i).generator = .working := by
  by_contra hnot
  have hexit := (tracked run hroom i).sound.inv.exit hnot
  rw [hopen i] at hexit
  cases hexit

include hroom hopen in
theorem desks (i : ℕ) (w : Fin S.numWorkers) : DeskInv S.batch (S.tid w) (run.state i).handOff.epistle
    (run.state i).handOff.clock ((run.state i).handOff.generator.stage w) ((run.state i).handOff.desk w) :=
  ((tracked run hroom i).sound.inv.working (working run hroom hopen i)).desks w

include hopen in
theorem not_exited (i : ℕ) (w : Fin S.numWorkers) : (run.state i).worker w ≠ .exited := by
  induction i with
  | zero =>
    rw [run.start]
    exact fun heq => by cases heq
  | succ i ih =>
    have hstep := (run.step i).1
    by_cases hmove : (run.label i).1 = .worker w
    · rcases (hstep.own hmove (hopen i) ih).2 with ⟨-, hlife, -⟩ | ⟨-, -, hlife, -⟩
      · rw [hlife]
        exact fun heq => by cases heq
      · rw [hlife]
        split <;> exact fun heq => by cases heq
    · rw [(hstep.worker_frame hmove).1]
      exact ih

include hroom hopen hstopped in
/-- The generator leaves a worker. -/
theorem reaches_away {front : List Arrival} (hfront : front <+: ((run.state i).handOff.desk w).polled) :
    ∃ j, i ≤ j ∧ ((run.state j).handOff.generator.stage w = .away ∧ front <+: ((run.state j).handOff.desk w).polled) := by
  let Serving := fun n i => (run.state i).handOff.generator.stage w ≠ .away ∧
    front <+: ((run.state i).handOff.desk w).polled ∧
    Ahead S (run.state i).handOff.epistle.occ n (run.state i).handOff.generator
  have hother : ∀ n i, Serving n i → (run.label i).1 ≠ .generator →
      ((run.state (i + 1)).handOff.generator.stage w = .away ∧ front <+: ((run.state (i + 1)).handOff.desk w).polled) ∨
        Serving n (i + 1) := by
    intro n i h hother
    obtain ⟨hstage, hfront, hahead⟩ := h
    have hstep := (run.step i).1
    have hpc := (hstep.generator_frame hother).2
    refine .inr ⟨hpc ▸ hstage, hfront.trans (hstep.polled_grows w), ?_⟩
    rw [hpc]
    exact hahead.mono hstep.keeps
  have hmove : ∀ n i, Serving n i → (run.label i).1 = .generator →
      ((run.state (i + 1)).handOff.generator.stage w = .away ∧ front <+: ((run.state (i + 1)).handOff.desk w).polled) ∨
        ∃ m < n, Serving m (i + 1) := by
    intro n i h hmove
    obtain ⟨hstage, hfront, hahead⟩ := h
    have hstep := (run.step i).1
    have hfront' := hfront.trans (hstep.polled_grows w)
    by_cases hleft : (run.state (i + 1)).handOff.generator.stage w = .away
    · exact .inl ⟨hleft, hfront'⟩
    · have henter : (run.state i).handOff.generator ≠ .enter 0 := fun heq => hstage (heq ▸ rfl)
      have hwait : (run.state i).handOff.generator ≠ .wait := fun heq => hstage (heq ▸ rfl)
      obtain ⟨m, hlt, hahead'⟩ := hstep.goes_on hmove (tracked run hroom i).sound (tracked run hroom (i + 1)).sound
        (hopen i) (working run hroom hopen i) (fun heq => absurd heq hwait) henter (hstopped i) hahead
      exact .inr ⟨m, hlt, hleft, hfront', hahead'⟩
  by_cases hstage : (run.state i).handOff.generator.stage w = .away
  · exact ⟨i, Nat.le_refl i, hstage, hfront⟩
  · obtain ⟨n, hahead⟩ := (tracked run hroom i).sound.lively.ahead (working run hroom hopen i)
    exact run.reaches .generator (fun _ _ _ => trivial) (P := Serving)
      (Q := fun i => (run.state i).handOff.generator.stage w = .away ∧ front <+: ((run.state i).handOff.desk w).polled)
      hother hmove ⟨hstage, hfront, hahead⟩

include hroom hopen in
/-- A worker that has a batch is through with it in the end. -/
theorem reaches_released (hdone : (run.state i).handOff.main = .done)
    (hstage : (run.state i).handOff.generator.stage w = .away) {front : List Arrival}
    (hfront : front <+: ((run.state i).handOff.desk w).polled) :
    ∃ j, i ≤ j ∧ ((run.state j).handOff.main = .done ∧ (run.state j).handOff.generator.stage w = .away ∧
      ((run.state j).handOff.desk w).numRequests = 0 ∧ front <+: ((run.state j).handOff.desk w).polled) := by
  let Released := fun i => (run.state i).handOff.main = .done ∧ (run.state i).handOff.generator.stage w = .away ∧
    ((run.state i).handOff.desk w).numRequests = 0 ∧ front <+: ((run.state i).handOff.desk w).polled
  let Loaded := fun n i => (run.state i).handOff.main = .done ∧ (run.state i).handOff.generator.stage w = .away ∧
    front <+: ((run.state i).handOff.desk w).polled ∧ ((run.state i).handOff.desk w).numRequests ≠ 0 ∧
    ((run.state i).worker w = .head ∧ roundAccesses S.batch capacity + 1 ≤ n ∨
      (run.state i).worker w = .inside ∧ roundAccesses S.batch capacity ≤ (run.state i).spent w + n)
  have hother : ∀ n i, Loaded n i → (run.label i).1 ≠ .worker w →
      Released (i + 1) ∨ Loaded n (i + 1) := by
    intro n i h hother
    obtain ⟨hdone, hstage, hfront, hnum, hlife⟩ := h
    have hstep := (run.step i).1
    obtain ⟨hdesk, helsewhere⟩ := hstep.desk_frame hother hdone hstage
    obtain ⟨hsame, -, -, hspent⟩ := hstep.worker_frame hother
    have hnum' : ((run.state (i + 1)).handOff.desk w).numRequests ≠ 0 := hdesk ▸ hnum
    have hstage' := (desks run hroom hopen (i + 1) w).away_of_num hnum' helsewhere.ne_handing
    exact .inr ⟨hstep.done_stays hdone, hstage', hdesk ▸ hfront, hnum', hsame ▸ hspent ▸ hlife⟩
  have hready : ∀ n i, Loaded n i → Ready (.worker w) (run.state i) := by
    intro n i h
    obtain ⟨-, hstage, -, hnum, -⟩ := h
    have hdesk := desks run hroom hopen i w
    rw [hstage] at hdesk
    exact ⟨not_exited run hopen i w, not_idle_of_runnable hdesk.placed (hdesk.running_of_num hnum).2⟩
  have hmove : ∀ n i, Loaded n i → (run.label i).1 = .worker w →
      Released (i + 1) ∨ ∃ m < n, Loaded m (i + 1) := by
    intro n i h hmove
    obtain ⟨hdone, hstage, hfront, hnum, hlife⟩ := h
    have hstep := (run.step i).1
    obtain ⟨hgenerator, hown⟩ := hstep.own hmove (hopen i) (not_exited run hopen i w)
    have hstage' : (run.state (i + 1)).handOff.generator.stage w = .away := by
      rw [hgenerator]
      exact hstage
    have hfront' := hfront.trans (hstep.polled_grows w)
    by_cases hnum' : ((run.state (i + 1)).handOff.desk w).numRequests = 0
    · exact .inl ⟨hstep.done_stays hdone, hstage', hnum', hfront'⟩
    · right
      have hround : (run.state (i + 1)).worker w = .inside ∧ 1 ≤ n ∧
          roundAccesses S.batch capacity ≤ (run.state (i + 1)).spent w + (n - 1) := by
        rcases hown with ⟨hhead, hinside, hspent, -⟩ | ⟨hinside, hspent, hlooped, -⟩
        · have hn := hlife.resolve_right fun hcase => by simp [hhead] at hcase
          exact ⟨hinside, by omega, by omega⟩
        · have hn := hlife.resolve_left fun hcase => by simp [hinside] at hcase
          have hdesk := desks run hroom hopen i w
          rw [hstage] at hdesk
          rw [hdesk.not_loops hnum] at hlooped
          have hsound := (tracked run hroom (i + 1)).sound
          obtain ⟨slot, hfree⟩ := hsound.free
          have hspent' := (hsound.budgets.inside w hlooped).le hfree (hsound.inv.not_failed.2 w)
          exact ⟨hlooped, by omega, by omega⟩
      obtain ⟨hinside, hpos, hn⟩ := hround
      exact ⟨n - 1, by omega, hstep.done_stays hdone, hstage', hfront', hnum', .inr ⟨hinside, hn⟩⟩
  by_cases hnum : ((run.state i).handOff.desk w).numRequests = 0
  · exact ⟨i, Nat.le_refl i, hdone, hstage, hnum, hfront⟩
  · have hlife : (run.state i).worker w = .head ∧ roundAccesses S.batch capacity + 1 ≤ roundAccesses S.batch capacity + 1 ∨
        (run.state i).worker w = .inside ∧
          roundAccesses S.batch capacity ≤ (run.state i).spent w + (roundAccesses S.batch capacity + 1) := by
      cases hcase : (run.state i).worker w with
      | head => exact .inl ⟨rfl, Nat.le_refl _⟩
      | inside => exact .inr ⟨rfl, by omega⟩
      | exited => exact absurd hcase (not_exited run hopen i w)
    exact run.reaches (.worker w) (P := Loaded) (Q := Released) hready hother hmove ⟨hdone, hstage, hfront, hnum, hlife⟩

include hroom hopen hstopped in
/-- The generator leaves a worker, and the worker is through with its batch. -/
theorem reaches_free {front : List Arrival} (hfront : front <+: ((run.state i).handOff.desk w).polled) :
    ∃ j, i ≤ j ∧ ((run.state j).handOff.main = .done ∧ (run.state j).handOff.generator.stage w = .away ∧
      ((run.state j).handOff.desk w).numRequests = 0 ∧ front <+: ((run.state j).handOff.desk w).polled) := by
  obtain ⟨k, hdone⟩ := reaches_done run hroom
  have hgrows : front <+: ((run.state (max i k)).handOff.desk w).polled :=
    run.persists (P := fun s => front <+: (s.handOff.desk w).polled)
      (fun _ _ _ hfront hstep => hfront.trans (hstep.1.polled_grows w)) hfront (Nat.le_max_left i k)
  obtain ⟨l, hl, haway, hfront'⟩ := reaches_away run hroom hopen hstopped hgrows
  have hdone' : (run.state l).handOff.main = .done :=
    run.persists (P := fun s : Experiment S capacity => s.handOff.main = .done)
      (fun _ _ _ hdone hstep => hstep.1.done_stays hdone) hdone (Nat.le_trans (Nat.le_max_right i k) hl)
  obtain ⟨j, hj, hreleased⟩ := reaches_released run hroom hopen hdone' haway hfront'
  exact ⟨j, Nat.le_trans (Nat.le_trans (Nat.le_max_left i k) hl) hj, hreleased⟩

include hroom hopen hstopped in
theorem reaches_recorded {front : List Arrival} (hfront : front <+: ((run.state i).handOff.desk w).polled) :
    ∃ j, i ≤ j ∧ front <+: ((run.state j).handOff.desk w).recorded.map (·.toArrival) := by
  obtain ⟨j, hj, -, hstage, hnum, hfront'⟩ := reaches_free run hroom hopen hstopped hfront
  have hdesk := desks run hroom hopen j w
  rw [hstage] at hdesk
  refine ⟨j, hj, ?_⟩
  rw [hdesk.recorded_all hnum]
  exact hfront'

end Fair

/-- **Every request is handled**: what the generator has polled for a worker so far, the worker has recorded some time later, in this order. -/
theorem every_request_recorded {e : Epistle UInt32 capacity}
    (run : FairRun SettledStep Prod.fst Ready (Experiment.init S e)) (hroom : Roomy S e)
    (hopen : ∀ i, (run.state i).exitAll = false)
    (hstopped : ∀ i w, (run.state i).handOff.generator ≠ .stopped w) (i : ℕ) (w : Fin S.numWorkers) : ∃ j, i ≤ j ∧
      ((run.state i).handOff.desk w).polled <+: ((run.state j).handOff.desk w).recorded.map (·.toArrival) :=
  reaches_recorded run hroom hopen hstopped (List.prefix_refl _)

end Experiment

open Experiment

def upToPush : List (Thread oneWorker.numWorkers) :=
  List.replicate 5 (.worker theWorker) ++ List.replicate 4 .main ++ List.replicate 12 .generator

/-- The first request is in the vector of the worker. -/
def afterPush (capacity : Nat) [NeZero capacity] : Experiment oneWorker capacity :=
  upToPush.foldl (fun s thread => s.move thread quiet) (.init oneWorker Epistle.init)

/-- The experiment goes on, and no other request arrives. -/
structure Quiet (s : Experiment oneWorker 4) : Prop where
  exitAll : s.exitAll = false
  clock : s.handOff.clock = 7
  start : s.handOff.start = 10
  launched : s.handOff.generator.Launched

theorem Quiet.move {s : Experiment oneWorker 4} (h : Quiet s) (thread : Thread oneWorker.numWorkers) :
    Quiet (s.move thread quiet) := by
  have hhandOff : (s.move thread quiet).handOff.start = s.handOff.start ∧
      (s.move thread quiet).handOff.generator.Launched := by
    rcases move_handOff thread quiet s with hmove | ⟨epistle, hmove⟩
    · rw [hmove]
      cases thread with
      | main =>
        show (HandOff.moveMain _).start = _ ∧ (HandOff.moveMain _).generator.Launched
        unfold HandOff.moveMain
        repeat' split
        all_goals exact ⟨rfl, h.launched⟩
      | generator =>
        have hzero : s.handOff.start ≠ 0 := by
          rw [h.start]
          decide
        have hearly : ¬ s.handOff.start ≤ quiet.now := by
          rw [h.start]
          decide
        obtain ⟨hlaunched, hstart⟩ :=
          HandOff.moveGenerator_launched (s := { s.handOff with clock := quiet.now }) quiet.toInput h.launched
        exact ⟨hstart.resolve_right fun hdue => hearly hdue.1, hlaunched.resolve_right fun hstop => hzero hstop.1⟩
      | worker w => exact ⟨rfl, h.launched⟩
    · rw [hmove]
      exact ⟨rfl, h.launched⟩
  exact ⟨(move_exitAll rfl thread).trans h.exitAll, move_clock .., hhandOff.1.trans h.start, hhandOff.2⟩

set_option maxRecDepth 8000 in
theorem every_request_recorded_first : ∃ run : FairRun SettledStep Prod.fst Ready
    (Experiment.init oneWorker (Epistle.init : Epistle UInt32 4)), ∃ i,
    ((run.state i).handOff.desk theWorker).polled = [⟨7, 7, 7, .get 1⟩] ∧
    ((run.state i).handOff.desk theWorker).recorded = [] ∧ ∃ j, i ≤ j ∧
      [⟨7, 7, 7, .get 1⟩] <+: ((run.state j).handOff.desk theWorker).recorded.map (·.toArrival) := by
  obtain ⟨actions, hrun⟩ : ∃ actions, Runs SettledStep (Experiment.init oneWorker Epistle.init) actions (afterPush 4) :=
    ⟨_, runs_moves rfl upToPush (by decide)⟩
  have hpushed : Quiet (afterPush 4) := by
    have hgenerator : (afterPush 4).handOff.generator = .testEmpty theWorker := by decide
    refine ⟨by decide, by decide, by decide, ?_⟩
    rw [hgenerator]
    trivial
  have hnext : ∀ i s, Quiet s → ∃ t, SettledStep s (inTurn quiet i) t ∧ Quiet t := by
    intro i s h
    have hsnd := inTurn_snd quiet i
    rcases hlabel : inTurn quiet i with ⟨thread, signal⟩
    obtain rfl : signal = quiet := by rw [hlabel] at hsnd; exact hsnd
    refine ⟨_, ⟨⟨UInt64.le_of_eq h.clock, rfl⟩, ?_⟩, h.move thread⟩
    cases thread with
    | main => exact fun _ _ hexit => by cases hexit
    | generator | worker => trivial
  obtain ⟨rest, -, hquiet⟩ := FairRun.exists_of_order Ready (inTurn quiet) (inTurn_fair quiet) hpushed hnext
  obtain ⟨run, hrest⟩ := FairRun.exists_of_runs hrun rest
  have hlast := (hrest 0).1
  rw [Nat.add_zero, rest.start] at hlast
  have hopen : ∀ i, (run.state i).exitAll = false := by
    intro i
    rw [← Bool.not_eq_true]
    refine run.not_before (P := fun s : Experiment oneWorker 4 => s.exitAll = true)
      (fun _ _ _ hexit hstep => hstep.1.exitAll_stays hexit) (i := actions.length) (fun d => ?_) i
    rw [(hrest d).1, (hquiet d).exitAll]
    exact Bool.false_ne_true
  have hstopped : ∀ i w, (run.state i).handOff.generator ≠ .stopped w := by
    intro i w
    refine run.not_before (P := fun s : Experiment oneWorker 4 => s.handOff.generator = .stopped w)
      (fun _ _ _ hstopped hstep => hstep.1.stopped_stays hstopped) (i := actions.length) (fun d hgenerator => ?_) i
    have hlaunched := (hquiet d).launched
    rw [← (hrest d).1, hgenerator] at hlaunched
    exact hlaunched
  have hpolled : ((afterPush 4).handOff.desk theWorker).polled = [⟨7, 7, 7, .get 1⟩] := by decide
  have hrecorded := every_request_recorded run (Roomy.init (by decide)) hopen hstopped actions.length theWorker
  rw [hlast, hpolled] at hrecorded
  refine ⟨run, actions.length, ?_, ?_, hrecorded⟩
  · rw [hlast, hpolled]
  · rw [hlast]
    decide

end Workload

end CosUserspace
