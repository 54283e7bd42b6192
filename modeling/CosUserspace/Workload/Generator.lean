import CosUserspace.Workload.Ownership

/-!
# The generator and the whole run

The generator is at one worker at a time, and only while the turn of that worker is idle, or a batch is loaded for it. With what each thread relies on kept by its own accesses and by those of the others, every state of a run satisfies `Inv`, and the guarantees of the hand-off are read off it.
-/

namespace CosUserspace

namespace Workload

variable {capacity : Nat} [NeZero capacity] {S : Setup}

/-- What the generator relies on at its next access. -/
def GeneratorPc.At (S : Setup) (e : Epistle UInt32 capacity) (clock : UInt64)
    (requests : Fin S.numWorkers → List Request) : GeneratorPc S.numWorkers capacity → Prop
  | .look w pc | .confirm w pc => pc.At e.occ (S.tid w)
  | .arrive w k => (requests w).length = k ∧ k < S.batch
  | .receive w k arrival => ((requests w).length = k ∧ k < S.batch) ∧ arrival ≤ clock
  | .assign w k r => ((requests w).length = k ∧ k < S.batch) ∧ r.requestGenerated ≤ r.requestReceived ∧
      r.requestReceived ≤ clock
  | .push w k r => ((requests w).length = k ∧ k < S.batch) ∧ r.toArrival.Ordered clock
  | .testEmpty w => (requests w).length ≤ S.batch
  | .bound w | .measure w => requests w ≠ [] ∧ (requests w).length ≤ S.batch
  | .store w num => num = (requests w).length ∧ requests w ≠ [] ∧ (requests w).length ≤ S.batch
  | .hand w pc => Epistle.Seeks e.occ (S.tid w) pc
  | .wait | .launch | .enter _ | .expectZero _ | .clear _ | .stopped _ => True
  | .failed => False

omit [NeZero capacity] in
/-- The worker has its entry in `worker_works`. -/
def MainPc.Passed (w : Nat) : MainPc → Prop
  | .wait i | .insert i => w < i
  | .release | .done => True

structure Inv (s : HandOff S capacity) : Prop where
  blank : s.epistle.Blank
  desks : ∀ w, DeskInv S.batch (S.tid w) s.epistle s.clock (s.generator.stage w) (s.desk w)
  generator : s.generator.At S s.epistle s.clock fun w => (s.desk w).requests
  inserted : ∀ w : Fin S.numWorkers, (s.desk w).work.isSome = true ↔ s.main.Passed w
  lock : s.generatorLock = true → s.main = .done
  waits : s.generator = .wait ∨ s.generatorLock = true

/-! ### Steps of others -/

section Frame

variable {batch : Nat} {key other : Int32} {e e' : Epistle UInt32 capacity} {clock clock' : UInt64} {stage : Stage}
  {d : Desk capacity}

theorem Desk.At.tick (hat : d.At e key clock) (hle : clock ≤ clock') : d.At e key clock' := by
  cases hpc : d.pc with
  | stampStart num i time =>
    simp only [Desk.At, hpc] at hat ⊢
    exact ⟨hat.1, UInt64.le_trans hat.2.1 hle, hat.2.2⟩
  | handle num i | finish num i =>
    simp only [Desk.At, hpc] at hat ⊢
    exact ⟨hat.1, fun r hr => ⟨(hat.2 r hr).1, UInt64.le_trans (hat.2 r hr).2 hle⟩⟩
  | announce | register | poll | confirm | measure | start | stampFinish | append | retire =>
    simpa only [Desk.At, hpc] using hat
  | lookup | load | release => simp only [Desk.At, hpc]
  | failed => simp only [Desk.At, hpc] at hat

theorem DeskInv.tick (h : DeskInv batch key e clock stage d) (hle : clock ≤ clock') :
    DeskInv batch key e clock' stage d where
  placed := h.placed
  turn := h.turn
  access := h.access.tick hle
  log := h.log
  times r hr := ⟨(h.times r hr).generated_le, (h.times r hr).received_le, UInt64.le_trans (h.times r hr).assigned_le hle⟩
  recorded := h.recorded
  fresh := h.fresh

theorem Desk.At.frame (hat : d.At e key clock) (htouches : Epistle.Touches other e e') (hne : key ≠ other) :
    d.At e' key clock := by
  cases hpc : d.pc with
  | announce =>
    simp only [Desk.At, hpc] at hat ⊢
    exact htouches.lacks hne hat
  | register pc =>
    simp only [Desk.At, hpc] at hat ⊢
    exact hat.mono htouches.keeps fun slot hslot => (htouches.occ_of_ne hne hslot).1
  | poll pc | confirm pc =>
    simp only [Desk.At, hpc] at hat ⊢
    exact hat.mono htouches.keeps
  | retire pc =>
    simp only [Desk.At, hpc] at hat ⊢
    exact hat.mono htouches.keeps
  | measure | start | stampStart | handle | finish | stampFinish | append => simpa only [Desk.At, hpc] using hat
  | lookup | load | release => simp only [Desk.At, hpc]
  | failed => simp only [Desk.At, hpc] at hat

omit [NeZero capacity] in
theorem Turn.frame (hturn : Turn batch key e d stage) (htouches : Epistle.Touches other e e') (hne : key ≠ other) :
    Turn batch key e' d stage := by
  cases hturn with
  | starting hpc hunset hnum =>
    refine .starting hpc (fun idx hidx => ?_) hnum
    obtain ⟨hold, hsame⟩ := htouches.occ_of_ne hne hidx
    rw [hsame]
    exact hunset idx hold
  | idle hstage hpc hholds hnum => exact .idle hstage hpc (htouches.holds hne hholds) hnum
  | loaded hpc hholds hloaded => exact .loaded hpc (htouches.holds hne hholds) hloaded
  | running hpc hholds hloaded => exact .running hpc (htouches.holds hne hholds) hloaded
  | released hpc hholds hnum hrequests hbatch =>
    exact .released hpc (htouches.holds hne hholds) hnum hrequests hbatch

/-- The accesses of others to the epistle are no concern of a worker. -/
theorem DeskInv.frame (h : DeskInv batch key e clock stage d) (htouches : Epistle.Touches other e e')
    (hne : key ≠ other) : DeskInv batch key e' clock stage d :=
  ⟨htouches.placed hne h.placed, h.turn.frame htouches hne, h.access.frame htouches hne, h.log, h.times, h.recorded,
    h.fresh⟩

theorem GeneratorPc.At.mono {g : GeneratorPc S.numWorkers capacity} {requests requests' : Fin S.numWorkers → List Request}
    (hat : g.At S e clock requests) (hkeep : ∀ idx k, e.occ idx = some k → e'.occ idx = some k)
    (hle : clock ≤ clock') (hsame : ∀ w, g.stage w ≠ .away → requests' w = requests w) :
    g.At S e' clock' requests' := by
  cases g with
  | wait | launch | enter | expectZero | clear | stopped | failed => exact hat
  | look w pc | confirm w pc => exact Epistle.GetPc.At.mono hkeep hat
  | hand w pc => exact Epistle.Seeks.mono hkeep hat
  | arrive w k | testEmpty w | bound w | measure w | store w num =>
    have hw : requests' w = requests w := hsame w (by simp [stage])
    simpa only [At, hw] using hat
  | receive w k arrival =>
    have hw : requests' w = requests w := hsame w (by simp [stage])
    simp only [At, hw] at hat ⊢
    exact ⟨hat.1, UInt64.le_trans hat.2 hle⟩
  | assign w k r =>
    have hw : requests' w = requests w := hsame w (by simp [stage])
    simp only [At, hw] at hat ⊢
    exact ⟨hat.1, hat.2.1, UInt64.le_trans hat.2.2 hle⟩
  | push w k r =>
    have hw : requests' w = requests w := hsame w (by simp [stage])
    simp only [At, hw] at hat ⊢
    exact ⟨hat.1, hat.2.generated_le, hat.2.received_le, UInt64.le_trans hat.2.assigned_le hle⟩

/-- `main` makes the entries of a worker that has at most marked itself IDLE. -/
theorem DeskInv.insert (h : DeskInv batch key e clock .away d) (hnone : d.work = none) :
    DeskInv batch key e clock .away { d with work := some ⟨0, []⟩, recorded := [] } := by
  have hrequests : d.requests = [] := by simp [Desk.requests, hnone]
  have hpolled := h.fresh hnone
  have hnum : d.numRequests = 0 := by simp [Desk.numRequests, hnone]
  constructor
  case placed => exact h.placed
  case turn =>
    cases h.turn with
    | starting hpc hunset _ => exact .starting hpc hunset rfl
    | idle hstage hpc hholds _ => exact .idle hstage hpc hholds rfl
    | running _ _ hloaded => exact absurd hrequests hloaded.nonempty
    | released _ _ _ hsome _ => exact absurd hrequests hsome
  case access =>
    have hat := h.access
    cases hpc : d.pc with
    | announce | register | poll | confirm | retire =>
      simp only [Desk.At, hpc] at hat ⊢
      exact hat
    | lookup | load | release => trivial
    | measure | start | stampStart | handle | finish | stampFinish | append =>
      obtain ⟨-, -, hloaded⟩ := h.busy hpc trivial
      exact absurd hrequests hloaded.nonempty
    | failed => simp only [Desk.At, hpc] at hat
  case log =>
    obtain ⟨past, hpast, hhandled, -⟩ := h.log
    have hbatch : d.batchOf .away = [] := if_pos hnum
    rw [hbatch, List.append_nil, hpolled] at hpast
    rw [hbatch, List.take_nil, List.append_nil, ← hpast] at hhandled
    have hnothing : ∀ n, [] = ([] : List Arrival) ++ List.take n [] := fun n => by simp
    exact ⟨[], hpolled, hhandled.trans (hnothing _), hnothing _⟩
  case times => exact fun r hr => absurd hr List.not_mem_nil
  case recorded => exact fun r hr => absurd hr List.not_mem_nil
  case fresh =>
    intro hwork
    cases hwork

end Frame

/-! ### What the generator does to a desk -/

namespace DeskInv

variable {batch : Nat} {key : Int32} {e e' : Epistle UInt32 capacity} {clock : UInt64} {stage stage' : Stage}
  {d d' : Desk capacity} {cleared : Bool}

omit [NeZero capacity] in
/-- A worker that polls has handled and recorded all but the batch. -/
theorem log_iff (hpolling : d.pc.Polling) :
    d.Log stage ↔ d.polled = d.handled ++ d.batchOf stage ∧ d.recorded.map (·.toArrival) = d.handled := by
  obtain ⟨get, hcase⟩ := hpolling.eq_poll
  have hcounts : d.handledCount = 0 ∧ d.recordedCount = 0 := by
    simp only [Desk.handledCount, Desk.recordedCount, hcase, and_self]
  simp only [Desk.Log, hcounts, List.take_zero, List.append_nil]
  constructor
  · rintro ⟨past, hpolled, rfl, hrecorded⟩
    exact ⟨hpolled, hrecorded⟩
  · exact fun hlog => ⟨d.handled, hlog.1, rfl, hlog.2⟩

/-- The worker polls while the generator changes its desk. -/
theorem change (h : DeskInv batch key e clock stage d) (hpolling : d.pc.Polling) (hpc : d'.pc = d.pc)
    (hturn : Turn batch key e d' stage')
    (hlog : d'.polled = d'.handled ++ d'.batchOf stage' ∧ d'.recorded.map (·.toArrival) = d'.handled)
    (htimes : ∀ r ∈ d'.requests, r.toArrival.Ordered clock) (hrecorded : d'.recorded = d.recorded)
    (hfresh : d'.work = none → d'.polled = []) : DeskInv batch key e clock stage' d' where
  placed := h.placed
  turn := hturn
  access := by
    have hat := h.access
    obtain ⟨get, hcase⟩ := hpolling.eq_poll
    simp only [Desk.At, hpc, hcase] at hat ⊢
    exact hat
  log := (log_iff (hpc ▸ hpolling)).mpr hlog
  times := htimes
  recorded := by
    rw [hrecorded]
    exact h.recorded
  fresh := hfresh

theorem idle (h : DeskInv batch key e clock (.filling cleared) d) :
    d.pc.Polling ∧ e.Holds key epistleThreadIdle ∧ d.numRequests = 0 := by
  cases h.turn with
  | idle _ hpc hholds hnum => exact ⟨hpc, hholds, hnum⟩

theorem loaded (h : DeskInv batch key e clock .handing d) :
    d.pc.Polling ∧ e.Holds key epistleThreadIdle ∧ d.Loaded batch := by
  cases h.turn with
  | idle hstage => exact absurd rfl hstage
  | loaded hpc hholds hloaded => exact ⟨hpc, hholds, hloaded⟩

/-- A hint that is not RUNNABLE is that of an idle worker. -/
theorem claim (h : DeskInv batch key e clock .away d) {get : Epistle.GetPc capacity} (hat : get.At e.occ key)
    {hint : UInt32} (hmove : Epistle.getMove key e get = .inr hint) (hne : hint ≠ epistleThreadRunnable) :
    DeskInv batch key e clock (.filling false) d := by
  have hhint : e.Holds key hint := by
    rcases Epistle.getMove_at h.placed hat with ⟨get', hgoes, -⟩ | ⟨value, hreturns, hvalue⟩
    · rw [hmove] at hgoes
      cases hgoes
    · obtain rfl : hint = value := Sum.inr.inj (hmove.symm.trans hreturns)
      exact hvalue.resolve_right fun hlacks => hne hlacks.2
  cases h.turn with
  | starting hpc hunset hnum =>
    obtain ⟨idx, hidx, rfl⟩ := hhint
    exact absurd (hunset idx hidx) hne
  | idle _ hpc hholds hnum =>
    have hbatch : d.batchOf .away = d.batchOf (.filling false) := if_pos hnum
    have hlog := (log_iff hpc).mp h.log
    rw [hbatch] at hlog
    exact h.change hpc rfl (.idle (by simp) hpc hholds hnum) hlog h.times rfl h.fresh
  | running _ hholds _ | released _ hholds _ _ _ => exact absurd (hhint.value_eq h.placed hholds) hne

theorem clear (h : DeskInv batch key e clock (.filling false) d) (hwork : d.work.isSome) :
    DeskInv batch key e clock (.filling true) (d.setRequests []) := by
  obtain ⟨hpolling, hholds, hnum⟩ := h.idle
  have hrequests := Desk.setRequests_requests [] hwork
  have hbatch : (d.setRequests []).batchOf (.filling true) = d.batchOf (.filling false) := by
    simp only [Desk.batchOf, hrequests, List.map_nil]
  have hlog := (log_iff hpolling).mp h.log
  rw [← hbatch] at hlog
  refine h.change hpolling rfl (.idle (by simp) hpolling hholds (by simpa using hnum)) hlog ?_ rfl ?_
  · intro r hr
    rw [hrequests] at hr
    cases hr
  · intro hnone
    have hsome := Desk.setRequests_isSome [] d
    rw [hnone, hwork] at hsome
    cases hsome

theorem push (h : DeskInv batch key e clock (.filling true) d) {work : WorkerWork} (hwork : d.work = some work)
    {r : Request} (hordered : r.toArrival.Ordered clock) :
    DeskInv batch key e clock (.filling true)
      { d.setRequests (work.requests ++ [r]) with polled := d.polled ++ [r.toArrival] } := by
  obtain ⟨hpolling, hholds, hnum⟩ := h.idle
  have hold : d.requests = work.requests := by simp [Desk.requests, hwork]
  have hrequests := Desk.setRequests_requests (work.requests ++ [r]) (by rw [hwork]; rfl : d.work.isSome)
  obtain ⟨hpolled, hrecorded⟩ := (log_iff hpolling).mp h.log
  have hnum' := (Desk.setRequests_numRequests (work.requests ++ [r]) d).trans hnum
  refine h.change hpolling rfl (.idle (by simp) hpolling hholds hnum') ⟨?_, hrecorded⟩ ?_ rfl ?_
  · show d.polled ++ [r.toArrival] =
      d.handled ++ (d.setRequests (work.requests ++ [r])).requests.map (·.toArrival)
    rw [hpolled, hrequests]
    simp [Desk.batchOf, hold]
  · intro q hq
    have hmem : q ∈ work.requests ++ [r] := hrequests ▸ hq
    rcases List.mem_append.mp hmem with hbefore | hlast
    · exact h.times q (hold ▸ hbefore)
    · obtain rfl := List.mem_singleton.mp hlast
      exact hordered
  · intro hnone
    have hsome : (d.setRequests (work.requests ++ [r])).work = none := hnone
    simp [Desk.setRequests, hwork] at hsome

/-- There was nothing to hand over. -/
theorem leave (h : DeskInv batch key e clock (.filling true) d) (hempty : d.requests = []) :
    DeskInv batch key e clock .away d := by
  obtain ⟨hpolling, hholds, hnum⟩ := h.idle
  have hbatch : d.batchOf (.filling true) = d.batchOf .away := by
    simp only [Desk.batchOf, hempty, hnum, List.map_nil, if_true]
  have hlog := (log_iff hpolling).mp h.log
  rw [hbatch] at hlog
  exact h.change hpolling rfl (.idle (by simp) hpolling hholds hnum) hlog h.times rfl h.fresh

theorem store (h : DeskInv batch key e clock (.filling true) d) (hsome : d.requests ≠ [])
    (hbound : d.requests.length ≤ batch) :
    DeskInv batch key e clock .handing (d.setNumRequests d.requests.length) := by
  obtain ⟨hpolling, hholds, -⟩ := h.idle
  have hwork := Desk.isSome_of_requests hsome
  have hrequests := Desk.setNumRequests_requests d.requests.length d
  have hloaded : (d.setNumRequests d.requests.length).Loaded batch := by
    refine ⟨?_, ?_, ?_⟩
    · rw [Desk.setNumRequests_numRequests _ hwork, hrequests]
    · rw [hrequests]
      exact hsome
    · rw [hrequests]
      exact hbound
  have hbatch : (d.setNumRequests d.requests.length).batchOf .handing = d.batchOf (.filling true) := by
    simp only [Desk.batchOf, hrequests]
  have hlog := (log_iff hpolling).mp h.log
  rw [← hbatch] at hlog
  refine h.change hpolling rfl (.loaded hpolling hholds hloaded) hlog ?_ rfl ?_
  · rw [hrequests]
    exact h.times
  · intro hnone
    have hisSome := Desk.setNumRequests_isSome d.requests.length d
    rw [hnone, hwork] at hisSome
    cases hisSome

/-- The worker is RUNNABLE, and the batch is with it. -/
theorem hand (h : DeskInv batch key e clock .handing d) (htouches : Epistle.Touches key e e')
    (hplaced : KeyPlaced Epistle.hash e'.occ key) (hholds : e'.Holds key epistleThreadRunnable) :
    DeskInv batch key e' clock .away d := by
  obtain ⟨hpolling, -, hloaded⟩ := h.loaded
  have hbatch : d.batchOf .handing = d.batchOf .away := hloaded.batchOf_away.symm
  have hlog := (log_iff hpolling).mp h.log
  rw [hbatch] at hlog
  refine ⟨hplaced, .running (.inl hpolling) hholds hloaded, ?_, (log_iff hpolling).mpr hlog, h.times, h.recorded,
    h.fresh⟩
  have hat := h.access
  obtain ⟨get, hcase⟩ := hpolling.eq_poll
  simp only [Desk.At, hcase] at hat ⊢
  exact hat.mono htouches.keeps

end DeskInv

/-- The generator is at the worker `w`, at the stage `st`. -/
structure HandOff.Serves (s : HandOff S capacity) (w : Fin S.numWorkers) (st : Stage) : Prop where
  lock : s.generatorLock = true
  stage : ∀ v, s.generator.stage v = if w = v then st else .away

namespace Inv

variable {s : HandOff S capacity}

theorem tick (h : Inv s) {now : UInt64} (hle : s.clock ≤ now) : Inv { s with clock := now } where
  blank := h.blank
  desks w := (h.desks w).tick hle
  generator := h.generator.mono (fun _ _ hslot => hslot) hle fun _ _ => rfl
  inserted := h.inserted
  lock := h.lock
  waits := h.waits

theorem worker (h : Inv s) (w : Fin S.numWorkers) : Inv (s.moveWorker w s.clock) := by
  have hmoved := (h.desks w).move (S.tid_ne_zero w) h.blank
  rw [HandOff.moveWorker]
  generalize (s.desk w).move S.batch (S.tid w) s.clock s.epistle = next at hmoved
  obtain ⟨e', d'⟩ := next
  have hothers : ∀ v, v ≠ w → Function.update s.desk w d' v = s.desk v := fun v hv => Function.update_of_ne hv ..
  constructor
  case blank => exact hmoved.touches.blank h.blank
  case desks =>
    intro v
    by_cases hv : v = w
    · subst hv
      show DeskInv _ _ e' s.clock (s.generator.stage v) (Function.update s.desk v d' v)
      rw [Function.update_self]
      exact hmoved.inv
    · show DeskInv _ _ e' s.clock (s.generator.stage v) (Function.update s.desk w d' v)
      rw [hothers v hv]
      exact (h.desks v).frame hmoved.touches fun heq => hv (S.tid_injective heq)
  case generator =>
    apply h.generator.mono hmoved.touches.keeps (UInt64.le_refl _)
    intro v hstage
    show (Function.update s.desk w d' v).requests = (s.desk v).requests
    by_cases hv : v = w
    · subst hv
      have hwork : d'.work = (s.desk v).work := (hmoved.stays hstage).2
      rw [Function.update_self, Desk.requests, Desk.requests, hwork]
    · rw [hothers v hv]
  case inserted =>
    intro v
    show (Function.update s.desk w d' v).work.isSome = true ↔ s.main.Passed v
    by_cases hv : v = w
    · subst hv
      rw [Function.update_self, hmoved.isSome]
      exact h.inserted v
    · rw [hothers v hv]
      exact h.inserted v
  case lock => exact h.lock
  case waits => exact h.waits

/-! ### main -/

theorem unlocked (h : Inv s) (hmain : s.main ≠ .done) : s.generatorLock ≠ true := fun hlock => hmain (h.lock hlock)

/-- `main` goes on without writing a desk. -/
theorem main_goto (h : Inv s) (hmain : s.main ≠ .done) {next : MainPc}
    (hpassed : ∀ v : Fin S.numWorkers, s.main.Passed v ↔ next.Passed v) : Inv { s with main := next } where
  blank := h.blank
  desks := h.desks
  generator := h.generator
  inserted v := (h.inserted v).trans (hpassed v)
  lock hlock := absurd hlock (h.unlocked hmain)
  waits := h.waits

/-- The worker whose entry `main` is about to insert has none. -/
theorem no_work (h : Inv s) {i : Nat} (hi : i < S.numWorkers) (hmain : s.main = .insert i) :
    (s.desk ⟨i, hi⟩).work = none := by
  have hpassed := h.inserted ⟨i, hi⟩
  rw [hmain] at hpassed
  rw [← Option.not_isSome_iff_eq_none, hpassed]
  exact Nat.lt_irrefl i

/-- `main` inserts the entry of the worker `i` while the generator waits. -/
theorem main_insert (h : Inv s) {i : Nat} (hi : i < S.numWorkers) (hmain : s.main = .insert i) :
    Inv { s.setDesk ⟨i, hi⟩ { s.desk ⟨i, hi⟩ with work := some ⟨0, []⟩, recorded := [] } with
      main := .wait (i + 1) } := by
  have hunlocked := h.unlocked (by simp [hmain])
  have hwait : s.generator = .wait := h.waits.resolve_right hunlocked
  have hpassed : ∀ v : Fin S.numWorkers, (s.desk v).work.isSome = true ↔ v.val < i := by
    intro v
    have hv := h.inserted v
    rw [hmain] at hv
    exact hv
  constructor
  case blank => exact h.blank
  case desks =>
    intro v
    have hdesk := h.desks v
    rw [hwait] at hdesk
    show DeskInv _ _ _ _ (s.generator.stage v) (Function.update s.desk ⟨i, hi⟩ _ v)
    rw [hwait]
    by_cases hv : v = ⟨i, hi⟩
    · subst hv
      rw [Function.update_self]
      exact hdesk.insert (h.no_work hi hmain)
    · rw [Function.update_of_ne hv]
      exact hdesk
  case generator =>
    show GeneratorPc.At S s.epistle s.clock _ s.generator
    rw [hwait]
    trivial
  case inserted =>
    intro v
    show (Function.update s.desk ⟨i, hi⟩ _ v).work.isSome = true ↔ v.val < i + 1
    by_cases hv : v = ⟨i, hi⟩
    · subst hv
      simp
    · have hne : v.val ≠ i := fun heq => hv (Fin.ext heq)
      rw [Function.update_of_ne hv, hpassed]
      omega
  case lock => exact fun hlock => absurd hlock hunlocked
  case waits => exact .inl hwait

theorem main (h : Inv s) : Inv s.moveMain := by
  unfold HandOff.moveMain
  split
  · rename_i i hmain
    split
    · split
      · apply h.main_goto (by simp [hmain])
        intro v
        rw [hmain]
        rfl
      · exact h
    · rename_i hi
      apply h.main_goto (by simp [hmain])
      intro v
      rw [hmain]
      have hv : v.val < i := by omega
      exact iff_of_true hv trivial
  · rename_i i hmain
    split
    · rename_i hi
      exact h.main_insert hi hmain
    · exact h
  · rename_i hmain
    have hpassed : ∀ v : Fin S.numWorkers, (s.desk v).work.isSome = true ↔ MainPc.done.Passed v := by
      intro v
      have hv := h.inserted v
      rw [hmain] at hv
      exact hv
    exact ⟨h.blank, h.desks, h.generator, hpassed, fun _ => rfl, .inr rfl⟩
  · exact h

/-! ### LoadGenerator -/

variable {w : Fin S.numWorkers} {g g' : GeneratorPc S.numWorkers capacity} {st st' : Stage}

theorem locked (h : Inv s) (hwait : s.generator ≠ .wait) : s.generatorLock = true := h.waits.resolve_left hwait

theorem generator_at (h : Inv s) (hpc : s.generator = g) : g.At S s.epistle s.clock fun v => (s.desk v).requests := by
  subst hpc
  exact h.generator

theorem serves (h : Inv s) (hpc : s.generator = g) (hwait : g ≠ .wait)
    (hstage : ∀ v, g.stage v = if w = v then st else .away) : s.Serves w st := by
  subst hpc
  exact ⟨h.locked hwait, hstage⟩

theorem desk_at (h : Inv s) (hserves : s.Serves w st) : DeskInv S.batch (S.tid w) s.epistle s.clock st (s.desk w) := by
  have hdesk := h.desks w
  rw [hserves.stage w, if_pos rfl] at hdesk
  exact hdesk

/-- The generator makes an access at the worker `w`, at the stage `st` before and `st'` after. -/
theorem access_at (h : Inv s) (hserves : s.Serves w st) (hnew : ∀ v, g.stage v = if w = v then st' else .away)
    {e : Epistle UInt32 capacity} {d : Desk capacity}
    (htouches : Epistle.Touches (S.tid w) s.epistle e) (hdesk : DeskInv S.batch (S.tid w) e s.clock st' d)
    (hisSome : d.work.isSome = (s.desk w).work.isSome)
    (hat : g.At S e s.clock fun v => (Function.update s.desk w d v).requests) :
    Inv { s with epistle := e, desk := Function.update s.desk w d, generator := g } where
  blank := htouches.blank h.blank
  desks v := by
    dsimp only
    rw [hnew v]
    by_cases hv : v = w
    · subst hv
      rw [Function.update_self, if_pos rfl]
      exact hdesk
    · have hother := h.desks v
      rw [hserves.stage v, if_neg (Ne.symm hv)] at hother
      rw [Function.update_of_ne hv, if_neg (Ne.symm hv)]
      exact hother.frame htouches fun heq => hv (S.tid_injective heq)
  generator := hat
  inserted v := by
    dsimp only
    by_cases hv : v = w
    · subst hv
      rw [Function.update_self, hisSome]
      exact h.inserted v
    · rw [Function.update_of_ne hv]
      exact h.inserted v
  lock := h.lock
  waits := .inr hserves.lock

/-- The generator goes on without writing anything. -/
theorem goto_at (h : Inv s) (hserves : s.Serves w st) (hnew : ∀ v, g.stage v = if w = v then st' else .away)
    (hdesk : DeskInv S.batch (S.tid w) s.epistle s.clock st' (s.desk w))
    (hat : g.At S s.epistle s.clock fun v => (s.desk v).requests) : Inv (s.goto g) := by
  have hstep := h.access_at hserves hnew (.refl _ _) hdesk rfl (by rw [Function.update_eq_self]; exact hat)
  rw [Function.update_eq_self] at hstep
  exact hstep

/-- The generator stays with the worker. -/
theorem goto_same (h : Inv s) (hserves : s.Serves w st) (hnew : ∀ v, g.stage v = if w = v then st else .away)
    (hat : g.At S s.epistle s.clock fun v => (s.desk v).requests) : Inv (s.goto g) :=
  h.goto_at hserves hnew (h.desk_at hserves) hat

/-- The generator is with no worker before and after. -/
theorem goto_away (h : Inv s) (hlock : s.generatorLock = true) (hold : ∀ v, s.generator.stage v = .away)
    (hnew : ∀ v, g.stage v = .away) (hat : g.At S s.epistle s.clock fun v => (s.desk v).requests) :
    Inv (s.goto g) where
  blank := h.blank
  desks v := by
    have hdesk := h.desks v
    rw [hold v] at hdesk
    show DeskInv _ _ _ _ (g.stage v) _
    rw [hnew v]
    exact hdesk
  generator := hat
  inserted := h.inserted
  lock := h.lock
  waits := .inr hlock

/-- The generator does not look at `start_` again before it goes on. -/
theorem setStart (h : Inv s) (start : UInt64) : Inv { s with start } :=
  ⟨h.blank, h.desks, h.generator, h.inserted, h.lock, h.waits⟩

/-- Once released the generator finds an entry for every worker. -/
theorem work_at (h : Inv s) (hlock : s.generatorLock = true) (w : Fin S.numWorkers) :
    ∃ work, (s.desk w).work = some work := by
  apply Option.isSome_iff_exists.mp
  rw [h.inserted w, h.lock hlock]
  trivial

omit [NeZero capacity] in
theorem requests_eq {work : WorkerWork} (hwork : (s.desk w).work = some work) :
    (s.desk w).requests = work.requests := by
  simp [Desk.requests, hwork]

theorem generator_look (h : Inv s) {get : Epistle.GetPc capacity} (hpc : s.generator = .look w get) (input : Input) :
    Inv (s.moveGenerator input) := by
  have hlock := h.locked (by simp [hpc])
  have hat := h.generator_at hpc
  have haway : ∀ v, s.generator.stage v = .away := fun v => by rw [hpc]; rfl
  have hserves : s.Serves w .away := ⟨hlock, fun v => (haway v).trans (ite_self _).symm⟩
  have hdesk := h.desk_at hserves
  unfold HandOff.moveGenerator
  rw [hpc]
  dsimp only
  cases hmove : Epistle.getMove (S.tid w) s.epistle get with
  | inl get' =>
    refine h.goto_away hlock haway (fun _ => rfl) ?_
    rcases Epistle.getMove_at hdesk.placed hat with ⟨get'', hmove', hat'⟩ | ⟨value, hmove', -⟩
    · obtain rfl : get' = get'' := Sum.inl.inj (hmove.symm.trans hmove')
      exact hat'
    · rw [hmove] at hmove'
      cases hmove'
  | inr hint =>
    by_cases hhint : hint = epistleThreadRunnable
    · simp only [hhint, if_true]
      exact h.goto_away hlock haway (fun _ => rfl) trivial
    · simp only [hhint, if_false]
      exact h.goto_at hserves (fun _ => rfl) (hdesk.claim hat hmove hhint) trivial

theorem generator_expectZero (h : Inv s) (hpc : s.generator = .expectZero w) (input : Input) :
    Inv (s.moveGenerator input) := by
  have hserves : s.Serves w (.filling false) := h.serves hpc (by simp) fun _ => rfl
  have hdesk := h.desk_at hserves
  obtain ⟨work, hwork⟩ := h.work_at hserves.lock w
  have hzero : work.numRequests = 0 := by
    have hnum := hdesk.idle.2.2
    simpa [Desk.numRequests, hwork] using hnum
  have hmove : s.moveGenerator input = s.goto (.clear w) := by
    simp only [HandOff.moveGenerator, hpc, HandOff.withWork, hwork, hzero, if_true]
  rw [hmove]
  exact h.goto_same hserves (fun _ => rfl) trivial

/-- The head of the loop over a batch, with `k` requests in the vector. -/
theorem nextPoll_at {e : Epistle UInt32 capacity} {clock : UInt64} {requests : Fin S.numWorkers → List Request} {k : Nat}
    (hlength : (requests w).length = k) (hbound : k ≤ S.batch) :
    (HandOff.nextPoll S w k : GeneratorPc S.numWorkers capacity).At S e clock requests := by
  unfold HandOff.nextPoll
  split
  · rename_i hmore
    exact ⟨hlength, hmore⟩
  · show (requests w).length ≤ S.batch
    omega

omit [NeZero capacity] in
theorem stage_nextPoll (w : Fin S.numWorkers) (k : Nat) (v : Fin S.numWorkers) :
    (HandOff.nextPoll S w k : GeneratorPc S.numWorkers capacity).stage v = if w = v then .filling true else .away := by
  unfold HandOff.nextPoll
  split <;> rfl

theorem generator_clear (h : Inv s) (hpc : s.generator = .clear w) (input : Input) : Inv (s.moveGenerator input) := by
  have hserves : s.Serves w (.filling false) := h.serves hpc (by simp) fun _ => rfl
  obtain ⟨work, hwork⟩ := h.work_at hserves.lock w
  have hsome : (s.desk w).work.isSome := by rw [hwork]; rfl
  have hmove : s.moveGenerator input =
      { s with desk := Function.update s.desk w ((s.desk w).setRequests []), generator := HandOff.nextPoll S w 0 } := by
    simp only [HandOff.moveGenerator, hpc, HandOff.withWork, hwork]
    rfl
  rw [hmove]
  apply h.access_at hserves (stage_nextPoll w 0) (.refl _ _) ((h.desk_at hserves).clear hsome)
  · simp
  · apply nextPoll_at
    · rw [Function.update_self, Desk.setRequests_requests [] hsome, List.length_nil]
    · exact Nat.zero_le _

theorem generator_arrive (h : Inv s) {k : Nat} (hpc : s.generator = .arrive w k) (input : Input)
    (hnow : s.clock = input.now) : Inv (s.moveGenerator input) := by
  have hserves : s.Serves w (.filling true) := h.serves hpc (by simp) fun _ => rfl
  have hat := h.generator_at hpc
  unfold HandOff.moveGenerator
  rw [hpc]
  dsimp only
  split
  · exact h.goto_same hserves (fun _ => rfl) trivial
  split
  · rename_i harrived
    have hstart := h.setStart (s.start + input.gap)
    exact hstart.goto_same (g := .receive w k s.start) ⟨hserves.lock, hserves.stage⟩ (fun _ => rfl)
      ⟨hat, hnow ▸ harrived⟩
  · apply h.goto_same hserves (fun _ => rfl)
    show (s.desk w).requests.length ≤ S.batch
    have hlength : (s.desk w).requests.length = k := hat.1
    have hlt : k < S.batch := hat.2
    omega

theorem generator_receive (h : Inv s) {k : Nat} {arrival : UInt64} (hpc : s.generator = .receive w k arrival)
    (input : Input) (hnow : s.clock = input.now) : Inv (s.moveGenerator input) := by
  have hserves : s.Serves w (.filling true) := h.serves hpc (by simp) fun _ => rfl
  have hat := h.generator_at hpc
  unfold HandOff.moveGenerator
  rw [hpc]
  exact h.goto_same hserves (fun _ => rfl) ⟨hat.1, hnow ▸ hat.2, hnow ▸ UInt64.le_refl _⟩

theorem generator_assign (h : Inv s) {k : Nat} {r : Request} (hpc : s.generator = .assign w k r)
    (input : Input) (hnow : s.clock = input.now) : Inv (s.moveGenerator input) := by
  have hserves : s.Serves w (.filling true) := h.serves hpc (by simp) fun _ => rfl
  have hat := h.generator_at hpc
  unfold HandOff.moveGenerator
  rw [hpc]
  exact h.goto_same hserves (fun _ => rfl) ⟨hat.1, hat.2.1, hnow ▸ hat.2.2, hnow ▸ UInt64.le_refl _⟩

theorem generator_push (h : Inv s) {k : Nat} {r : Request} (hpc : s.generator = .push w k r) (input : Input) :
    Inv (s.moveGenerator input) := by
  have hserves : s.Serves w (.filling true) := h.serves hpc (by simp) fun _ => rfl
  have hat := h.generator_at hpc
  obtain ⟨⟨hlength, hmore⟩, hordered⟩ := hat
  obtain ⟨work, hwork⟩ := h.work_at hserves.lock w
  have hsome : (s.desk w).work.isSome := by rw [hwork]; rfl
  have hmove : s.moveGenerator input = { s with
      desk := Function.update s.desk w
        { (s.desk w).setRequests (work.requests ++ [r]) with polled := (s.desk w).polled ++ [r.toArrival] }
      generator := HandOff.nextPoll S w (k + 1) } := by
    simp only [HandOff.moveGenerator, hpc, HandOff.withWork, hwork]
    rfl
  rw [hmove]
  apply h.access_at hserves (stage_nextPoll w (k + 1)) (.refl _ _) ((h.desk_at hserves).push hwork hordered)
  · exact Desk.setRequests_isSome ..
  · apply nextPoll_at
    · rw [Function.update_self]
      show ((s.desk w).setRequests (work.requests ++ [r])).requests.length = k + 1
      rw [Desk.setRequests_requests _ hsome, List.length_append, List.length_singleton, ← requests_eq hwork, hlength]
    · exact hmore

theorem generator_testEmpty (h : Inv s) (hpc : s.generator = .testEmpty w) (input : Input) :
    Inv (s.moveGenerator input) := by
  have hserves : s.Serves w (.filling true) := h.serves hpc (by simp) fun _ => rfl
  have hat := h.generator_at hpc
  obtain ⟨work, hwork⟩ := h.work_at hserves.lock w
  unfold HandOff.moveGenerator
  rw [hpc]
  simp only [HandOff.withWork, hwork]
  split
  · rename_i hempty
    apply h.goto_at hserves (g := .enter 0) (fun _ => (ite_self _).symm) _ trivial
    exact (h.desk_at hserves).leave ((requests_eq hwork).trans hempty)
  · rename_i hsome
    apply h.goto_same hserves (fun _ => rfl)
    exact ⟨fun hempty => hsome ((requests_eq hwork).symm.trans hempty), hat⟩

theorem generator_bound (h : Inv s) (hpc : s.generator = .bound w) (input : Input) : Inv (s.moveGenerator input) := by
  have hserves : s.Serves w (.filling true) := h.serves hpc (by simp) fun _ => rfl
  have hat := h.generator_at hpc
  obtain ⟨work, hwork⟩ := h.work_at hserves.lock w
  have hbound : work.requests.length ≤ S.batch := by
    rw [← requests_eq hwork]
    exact hat.2
  have hmove : s.moveGenerator input = s.goto (.measure w) := by
    simp only [HandOff.moveGenerator, hpc, HandOff.withWork, hwork, hbound, if_true]
  rw [hmove]
  exact h.goto_same hserves (fun _ => rfl) hat

theorem generator_measure (h : Inv s) (hpc : s.generator = .measure w) (input : Input) :
    Inv (s.moveGenerator input) := by
  have hserves : s.Serves w (.filling true) := h.serves hpc (by simp) fun _ => rfl
  have hat := h.generator_at hpc
  obtain ⟨work, hwork⟩ := h.work_at hserves.lock w
  have hmove : s.moveGenerator input = s.goto (.store w work.requests.length) := by
    simp only [HandOff.moveGenerator, hpc, HandOff.withWork, hwork]
  rw [hmove]
  exact h.goto_same hserves (fun _ => rfl) ⟨congrArg List.length (requests_eq hwork).symm, hat⟩

theorem generator_store (h : Inv s) {num : Nat} (hpc : s.generator = .store w num) (input : Input) :
    Inv (s.moveGenerator input) := by
  have hserves : s.Serves w (.filling true) := h.serves hpc (by simp) fun _ => rfl
  have hat := h.generator_at hpc
  obtain ⟨rfl, hsome, hbound⟩ := hat
  obtain ⟨work, hwork⟩ := h.work_at hserves.lock w
  have hmove : s.moveGenerator input = { s with
      desk := Function.update s.desk w ((s.desk w).setNumRequests (s.desk w).requests.length)
      generator := .confirm w (.test (Epistle.hash (S.tid w))) } := by
    simp only [HandOff.moveGenerator, hpc, HandOff.withWork, hwork]
    rfl
  rw [hmove]
  apply h.access_at hserves (fun _ => rfl) (.refl _ _) ((h.desk_at hserves).store hsome hbound)
  · simp
  · exact .start _ _

theorem generator_confirm (h : Inv s) {get : Epistle.GetPc capacity} (hpc : s.generator = .confirm w get)
    (input : Input) : Inv (s.moveGenerator input) := by
  have hserves : s.Serves w .handing := h.serves hpc (by simp) fun _ => rfl
  have hdesk := h.desk_at hserves
  have hat := h.generator_at hpc
  unfold HandOff.moveGenerator
  rw [hpc]
  rcases Epistle.getMove_holds hdesk.placed hdesk.loaded.2.1 hat with ⟨get', hmove, hat'⟩ | hmove
  · simp only [hmove]
    exact h.goto_same hserves (fun _ => rfl) hat'
  · simp only [hmove, if_true]
    exact h.goto_same hserves (fun _ => rfl) (.start _ _)

theorem generator_hand (h : Inv s) {add : Epistle.AddPc capacity} (hpc : s.generator = .hand w add) (input : Input) :
    Inv (s.moveGenerator input) := by
  have hserves : s.Serves w .handing := h.serves hpc (by simp) fun _ => rfl
  have hdesk := h.desk_at hserves
  have hat := h.generator_at hpc
  rcases Epistle.addMove_seeks epistleThreadRunnable hdesk.placed hdesk.loaded.2.1 hat with
    ⟨add', hmove, hseeks, hgoes⟩ | ⟨e', hmove, htouches, hplaced, hholds⟩
  · have hnext : s.moveGenerator input = s.goto (.hand w add') := by
      simp only [HandOff.moveGenerator, hpc]
      cases add' <;> first | exact absurd rfl hgoes | simp only [hmove]; rfl
    rw [hnext]
    exact h.goto_same hserves (fun _ => rfl) hseeks
  · have hnext : s.moveGenerator input =
        { s with epistle := e', desk := Function.update s.desk w (s.desk w), generator := .enter (w + 1) } := by
      rw [Function.update_eq_self]
      simp only [HandOff.moveGenerator, hpc, hmove]
    rw [hnext]
    exact h.access_at hserves (fun _ => (ite_self _).symm) htouches (hdesk.hand htouches hplaced hholds) rfl trivial

theorem generator_step (h : Inv s) (input : Input) (hnow : s.clock = input.now) : Inv (s.moveGenerator input) := by
  cases hpc : s.generator with
  | wait =>
    unfold HandOff.moveGenerator
    rw [hpc]
    dsimp only
    split
    · rename_i hlock
      exact h.goto_away hlock (fun v => by rw [hpc]; rfl) (fun _ => rfl) trivial
    · exact h
  | launch =>
    have hmove : s.moveGenerator input = ({ s with start := input.now } : HandOff S capacity).goto (.enter 0) := by
      simp only [HandOff.moveGenerator, hpc]
      rfl
    rw [hmove]
    exact (h.setStart input.now).goto_away (h.locked (by simp [hpc])) (fun v => by rw [hpc]; rfl) (fun _ => rfl) trivial
  | enter i =>
    have hlock := h.locked (by simp [hpc])
    unfold HandOff.moveGenerator
    rw [hpc]
    dsimp only
    split
    · exact h.goto_away hlock (fun v => by rw [hpc]; rfl) (fun _ => rfl) (.start _ _)
    · exact h.goto_away hlock (fun v => by rw [hpc]; rfl) (fun _ => rfl) trivial
  | look w get => exact h.generator_look hpc input
  | expectZero w => exact h.generator_expectZero hpc input
  | clear w => exact h.generator_clear hpc input
  | arrive w k => exact h.generator_arrive hpc input hnow
  | receive w k arrival => exact h.generator_receive hpc input hnow
  | assign w k r => exact h.generator_assign hpc input hnow
  | push w k r => exact h.generator_push hpc input
  | testEmpty w => exact h.generator_testEmpty hpc input
  | bound w => exact h.generator_bound hpc input
  | measure w => exact h.generator_measure hpc input
  | store w num => exact h.generator_store hpc input
  | confirm w get => exact h.generator_confirm hpc input
  | hand w add => exact h.generator_hand hpc input
  | stopped w =>
    simp only [HandOff.moveGenerator, hpc]
    exact h
  | failed => exact absurd (h.generator_at hpc) id

end Inv

end Workload

end CosUserspace
