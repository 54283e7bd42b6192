import CosUserspace.Workload.Generator

/-!
# No request is lost or repeated

The invariant of the hand-off holds in every state of every run from the start of the workload, so the asserts hold, a batch stays as it is while its worker is at it, and a worker that is done with a batch has handled and recorded what was polled for it, in this order.
-/

namespace CosUserspace

namespace Workload

open HandOff

variable {capacity : Nat} [NeZero capacity] {S : Setup} {s s' : HandOff S capacity}

namespace Inv

theorem init {e : Epistle UInt32 capacity} (hlacks : ∀ w, e.Lacks (S.tid w)) (hblank : e.Blank) :
    Inv (HandOff.init S e) := by
  constructor
  case blank => exact hblank
  case desks =>
    intro w
    have hunset : e.Unset (S.tid w) := fun idx hidx => absurd hidx (hlacks w idx)
    constructor
    case placed => exact fun slot hslot => absurd hslot (hlacks w slot)
    case turn => exact .starting trivial hunset rfl
    case access => exact hlacks w
    case log => exact ⟨[], rfl, rfl, rfl⟩
    case times => exact fun r hr => absurd hr List.not_mem_nil
    case recorded => exact fun r hr => absurd hr List.not_mem_nil
    case fresh => exact fun _ => rfl
  case generator => trivial
  case inserted =>
    intro w
    show (none : Option WorkerWork).isSome = true ↔ w.val < 0
    simp
  case lock => exact fun hlock => absurd hlock Bool.false_ne_true
  case waits => exact .inl rfl

theorem step (h : Inv s) {action : Thread S.numWorkers × Input} (hstep : Step s action s') : Inv s' := by
  obtain ⟨thread, input⟩ := action
  obtain ⟨hle, rfl⟩ := hstep
  have hticked := h.tick hle
  cases thread with
  | main => exact hticked.main
  | generator => exact hticked.generator_step input rfl
  | worker w => exact hticked.worker w

theorem of_runs {e : Epistle UInt32 capacity} (hlacks : ∀ w, e.Lacks (S.tid w)) (hblank : e.Blank)
    {actions : List (Thread S.numWorkers × Input)} (hrun : Runs Step (HandOff.init S e) actions s) : Inv s :=
  hrun.invariant (init hlacks hblank) fun _ _ _ h hstep => h.step hstep

end Inv

/-! ### The batch of a worker -/

theorem DeskInv.away {batch : Nat} {key : Int32} {e : Epistle UInt32 capacity} {clock : UInt64} {stage : Stage}
    {d : Desk capacity} (h : DeskInv batch key e clock stage d) (hpc : d.pc.Handling) : stage = .away := by
  have hpolling : ¬ d.pc.Polling := by
    cases hcase : d.pc <;> simp [hcase, WorkerPc.Handling, WorkerPc.Polling] at hpc ⊢
  cases h.turn with
  | starting | running | released => rfl
  | idle _ hpc' | loaded hpc' => exact absurd hpc' hpolling

omit [NeZero capacity] in
theorem Desk.withRequest_arrivals {d : Desk capacity} {i : Nat} {f : Request → Desk capacity}
    (hf : ∀ r, d.requests[i]? = some r → (f r).requests.map (·.toArrival) = d.requests.map (·.toArrival)) :
    (d.withRequest i f).requests.map (·.toArrival) = d.requests.map (·.toArrival) := by
  unfold withRequest
  cases hr : d.requests[i]? with
  | none => rfl
  | some r => exact hf r hr

omit [NeZero capacity] in
/-- A worker writes times of its own into a request, and nothing else. -/
theorem Desk.set_arrivals {d : Desk capacity} {i : Nat} {r r' : Request} (hr : d.requests[i]? = some r)
    (hsame : r'.toArrival = r.toArrival) :
    (d.setRequests (d.requests.set i r')).requests.map (·.toArrival) = d.requests.map (·.toArrival) := by
  have hsome : d.requests ≠ [] := fun hempty => by simp [hempty] at hr
  rw [setRequests_requests _ (isSome_of_requests hsome)]
  exact DeskInv.map_toArrival_set hr hsame

/-- No access of a worker clears its batch or extends it. -/
theorem Desk.move_arrivals (batch : Nat) (key : Int32) (now : UInt64) (e : Epistle UInt32 capacity)
    (d : Desk capacity) :
    (d.move batch key now e).2.requests.map (·.toArrival) = d.requests.map (·.toArrival) := by
  unfold Desk.move
  cases hpc : d.pc with
  | announce | start | finish | failed => rfl
  | release =>
    show ((d.setNumRequests 0).goto _).requests.map _ = _
    rw [goto_requests, setNumRequests_requests]
  | register add | retire add =>
    dsimp only
    split <;> rfl
  | poll get | confirm get =>
    dsimp only
    split
    · rfl
    · split <;> rfl
  | lookup | measure =>
    dsimp only
    split <;> rfl
  | load =>
    dsimp only
    split
    · rfl
    · split <;> rfl
  | stampStart num i time =>
    apply withRequest_arrivals
    intro r hr
    exact set_arrivals hr rfl
  | stampFinish num i time =>
    apply withRequest_arrivals
    intro r hr
    exact set_arrivals hr rfl
  | handle | append =>
    apply withRequest_arrivals
    intro r hr
    rfl

namespace HandOff

omit [NeZero capacity] in
theorem withWork_of {P : HandOff S capacity → Prop} {w : Fin S.numWorkers} {f : WorkerWork → HandOff S capacity}
    (hfailed : P (s.goto .failed)) (hf : ∀ work, P (f work)) : P (s.withWork w f) := by
  unfold withWork
  cases (s.desk w).work with
  | none => exact hfailed
  | some work => exact hf work

omit [NeZero capacity] in
theorem setDesk_desk_of_ne {w v : Fin S.numWorkers} (hne : v ≠ w) (d : Desk capacity) :
    (s.setDesk w d).desk v = s.desk v :=
  Function.update_of_ne hne ..

/-- The generator works on the vector of the worker it fills a batch for, and on no other. -/
theorem moveGenerator_requests (input : Input) (v : Fin S.numWorkers) (hstage : s.generator.stage v = .away) :
    ((s.moveGenerator input).desk v).requests = (s.desk v).requests := by
  have hother : ∀ w, s.generator.stage w ≠ .away → v ≠ w := by
    intro w hw heq
    exact hw (heq ▸ hstage)
  unfold moveGenerator
  cases hpc : s.generator with
  | launch | receive | assign | stopped | failed => rfl
  | wait | enter =>
    dsimp only
    split <;> rfl
  | look w get | confirm w get =>
    dsimp only
    split
    · rfl
    · split <;> rfl
  | expectZero w | testEmpty w | bound w =>
    apply withWork_of (P := fun t => (t.desk v).requests = (s.desk v).requests) rfl
    intro work
    split <;> rfl
  | clear w | push w k r | store w num =>
    have hne := hother w (by simp [hpc, GeneratorPc.stage])
    apply withWork_of (P := fun t => (t.desk v).requests = (s.desk v).requests) rfl
    intro work
    show ((s.setDesk w _).desk v).requests = _
    rw [setDesk_desk_of_ne hne]
  | arrive w k =>
    dsimp only
    split
    · rfl
    · split <;> rfl
  | measure w =>
    apply withWork_of (P := fun t => (t.desk v).requests = (s.desk v).requests) rfl
    intro work
    rfl
  | hand w add =>
    dsimp only
    split <;> rfl

end HandOff

namespace Inv

/-- While a worker is at its batch, nobody clears the batch or extends it. -/
theorem batch_stays (h : Inv s) {thread : Thread S.numWorkers} {input : Input} (hstep : Step s (thread, input) s')
    (w : Fin S.numWorkers) (hhandling : (s.desk w).pc.Handling) :
    (s'.desk w).requests.map (·.toArrival) = (s.desk w).requests.map (·.toArrival) := by
  obtain ⟨-, rfl⟩ := hstep
  cases thread with
  | main =>
    show ((({ s with clock := input.now } : HandOff S capacity).moveMain).desk w).requests.map _ = _
    unfold moveMain
    split
    · split
      · split <;> rfl
      · rfl
    · rename_i i hmain
      split
      · rename_i hi
        by_cases hw : w = ⟨i, hi⟩
        · -- the worker has no entry yet, so there is no batch
          have hnone : (s.desk ⟨i, hi⟩).work = none := h.no_work hi hmain
          subst hw
          show ((Function.update s.desk ⟨i, hi⟩ _) ⟨i, hi⟩).requests.map _ = _
          rw [Function.update_self]
          simp [Desk.requests, hnone]
        · show ((Function.update s.desk ⟨i, hi⟩ _) w).requests.map _ = _
          rw [Function.update_of_ne hw]
      · rfl
    · rfl
    · rfl
  | generator =>
    have hstage := (h.desks w).away hhandling
    exact congrArg _ (moveGenerator_requests (s := { s with clock := input.now }) input w hstage)
  | worker v =>
    show ((({ s with clock := input.now } : HandOff S capacity).moveWorker v input.now).desk w).requests.map _ = _
    unfold moveWorker
    by_cases hw : w = v
    · subst hw
      show ((Function.update s.desk w _) w).requests.map _ = _
      rw [Function.update_self]
      exact Desk.move_arrivals ..
    · show ((Function.update s.desk v _) w).requests.map _ = _
      rw [Function.update_of_ne hw]

/-- A worker that marks itself IDLE has handled and recorded what was polled for it; the batch is the last of it. -/
theorem batch_done (h : Inv s) {w : Fin S.numWorkers} {add : Epistle.AddPc capacity}
    (hpc : (s.desk w).pc = .retire add) :
    ∃ past, (s.desk w).polled = past ++ (s.desk w).requests.map (·.toArrival) ∧
      (s.desk w).handled = (s.desk w).polled ∧ (s.desk w).recorded.map (·.toArrival) = (s.desk w).polled := by
  have hdesk := h.desks w
  obtain ⟨hstage, -, hnum, -, past, hpast⟩ := hdesk.retiring hpc trivial
  obtain ⟨before, hpolled, hhandled, hrecorded⟩ := hdesk.log
  have hbatch : (s.desk w).batchOf (s.generator.stage w) = [] := by
    rw [hstage]
    exact if_pos hnum
  rw [hbatch, List.append_nil] at hpolled
  rw [hbatch, List.take_nil, List.append_nil] at hhandled hrecorded
  exact ⟨past, hpast, hhandled.trans hpolled.symm, hrecorded.trans hpolled.symm⟩

theorem not_failed (h : Inv s) : s.generator ≠ .failed ∧ ∀ w, (s.desk w).pc ≠ .failed := by
  constructor
  · intro hpc
    have hat := h.generator
    rw [hpc] at hat
    exact hat
  · intro w hpc
    have hat := (h.desks w).access
    simp only [Desk.At, hpc] at hat

end Inv

/-- In every run from the start of the workload no assert fails, a batch stays as it is until its worker has marked itself IDLE, every batch is then handled and recorded once and in order, and the times of a recorded request are in order. -/
theorem hand_off {e : Epistle UInt32 capacity} (hlacks : ∀ w, e.Lacks (S.tid w)) (hblank : e.Blank)
    {actions : List (Thread S.numWorkers × Input)} (hrun : Runs Step (HandOff.init S e) actions s) :
    (s.generator ≠ .failed ∧ ∀ w, (s.desk w).pc ≠ .failed) ∧
    (∀ thread input s', Step s (thread, input) s' → ∀ w, (s.desk w).pc.Handling →
      (s'.desk w).requests.map (·.toArrival) = (s.desk w).requests.map (·.toArrival)) ∧
    (∀ w add, (s.desk w).pc = .retire add →
      ∃ past, (s.desk w).polled = past ++ (s.desk w).requests.map (·.toArrival) ∧
        (s.desk w).handled = (s.desk w).polled ∧ (s.desk w).recorded.map (·.toArrival) = (s.desk w).polled) ∧
    ∀ w, ∀ r ∈ (s.desk w).recorded, r.Ordered := by
  have h := Inv.of_runs hlacks hblank hrun
  refine ⟨h.not_failed, ?_, ?_, fun w => (h.desks w).recorded⟩
  · intro thread input s' hstep w hhandling
    exact h.batch_stays hstep w hhandling
  · intro w add hpc
    exact h.batch_done hpc

/-! ### A run -/

namespace HandOff

theorem moveGenerator_clock (input : Input) (s : HandOff S capacity) : (s.moveGenerator input).clock = s.clock := by
  unfold moveGenerator
  cases s.generator with
  | launch | receive | assign | stopped | failed => rfl
  | wait | enter =>
    dsimp only
    split <;> rfl
  | look w get | confirm w get =>
    dsimp only
    split
    · rfl
    · split <;> rfl
  | expectZero w | testEmpty w | bound w =>
    apply withWork_of (P := fun t => t.clock = s.clock) rfl
    intro work
    split <;> rfl
  | arrive w k =>
    dsimp only
    split
    · rfl
    · split <;> rfl
  | clear w | push w k r | measure w | store w num =>
    apply withWork_of (P := fun t => t.clock = s.clock) rfl
    intro work
    rfl
  | hand w add =>
    dsimp only
    split <;> rfl

theorem move_clock (thread : Thread S.numWorkers) (input : Input) (s : HandOff S capacity) :
    (s.move thread input).clock = input.now := by
  cases thread with
  | main =>
    show (moveMain _).clock = _
    unfold moveMain
    repeat' split
    all_goals rfl
  | worker w => rfl
  | generator => exact moveGenerator_clock input { s with clock := input.now }

/-- The threads move one after the other at one time. -/
theorem runs_moves (input : Input) (threads : List (Thread S.numWorkers)) (hle : s.clock ≤ input.now) :
    Runs Step s (threads.map fun thread => (thread, input)) (threads.foldl (fun s thread => s.move thread input) s) := by
  induction threads generalizing s with
  | nil => exact .nil
  | cons thread threads ih =>
    apply Runs.cons ⟨hle, rfl⟩
    apply ih
    rw [move_clock]
    exact UInt64.le_refl _

end HandOff

/-- One worker, one request in a batch. -/
def oneWorker : Setup where
  numWorkers := 1
  tid := fun _ => 5
  batch := 1
  numWorkers_le := by decide
  tid_injective := fun _ _ _ => Subsingleton.elim ..
  tid_ne_zero := fun _ => by decide

def theWorker : Fin oneWorker.numWorkers := ⟨0, by decide⟩

/-- The worker announces itself, `main` releases the generator, the generator hands a request over, and the worker handles it. -/
def firstBatch : List (Thread oneWorker.numWorkers) :=
  List.replicate 5 (.worker theWorker) ++ List.replicate 4 .main ++ List.replicate 22 .generator ++
    List.replicate 16 (.worker theWorker)

def firstInput : Input := ⟨7, 3, ⟨⟨0, 0, 0, .get 1⟩, 0, 0⟩⟩

def afterFirstBatch : HandOff oneWorker 4 :=
  firstBatch.foldl (fun s thread => s.move thread firstInput) (HandOff.init oneWorker Epistle.init)

set_option maxRecDepth 4000 in
theorem hand_off_first :
    (afterFirstBatch.desk theWorker).handled = [⟨7, 7, 7, .get 1⟩] ∧
    (afterFirstBatch.desk theWorker).recorded.map (·.toArrival) = [⟨7, 7, 7, .get 1⟩] ∧
    ∀ r ∈ (afterFirstBatch.desk theWorker).recorded, r.Ordered := by
  have hlacks : ∀ w, (Epistle.init : Epistle UInt32 4).Lacks (oneWorker.tid w) := fun _ idx hidx => by
    rw [Epistle.occ_init] at hidx
    cases hidx
  have hrun : Runs Step (HandOff.init oneWorker Epistle.init) _ afterFirstBatch :=
    runs_moves firstInput firstBatch (by decide)
  obtain ⟨-, -, hdone, hordered⟩ := hand_off hlacks Epistle.blank_init hrun
  have hpolled : (afterFirstBatch.desk theWorker).polled = [⟨7, 7, 7, .get 1⟩] := by decide
  obtain ⟨-, -, hhandled, hrecorded⟩ := hdone theWorker (.test 1) (by decide)
  exact ⟨hhandled.trans hpolled, hrecorded.trans hpolled, hordered theWorker⟩

end Workload

end CosUserspace
