import CosUserspace.Workload.Experiment

/-!
# The experiment ends cleanly

As long as the generator hands out batches the hand-off keeps its invariant, whoever has left the loop already. Once the generator marks all workers, a worker may find itself RUNNABLE without a batch: `Spurious`. It then finds `num_requests` zero and goes back to the head of its loop, where it sees `exit_all`. So no assert fails, and when `main` has joined everybody, a worker has recorded what was polled for it but for the batch that it had not yet taken up, which is in its vector as it was.
-/

namespace CosUserspace

namespace Workload

variable {capacity : Nat} [NeZero capacity] {S : Setup}

/-! ### A worker without a batch -/

/-- What a worker relies on that was marked RUNNABLE without a batch. -/
def Desk.Idles (e : Epistle UInt32 capacity) (key : Int32) (d : Desk capacity) : Prop :=
  match d.pc with
  | .poll pc | .confirm pc => pc.At e.occ key
  | .lookup | .load => True
  | _ => False

structure Spurious (key : Int32) (e : Epistle UInt32 capacity) (d : Desk capacity) : Prop where
  placed : KeyPlaced Epistle.hash e.occ key
  holds : e.Holds key epistleThreadRunnable
  access : d.Idles e key
  num : d.numRequests = 0
  polled : d.polled = d.handled
  handled : d.recorded.map (·.toArrival) = d.handled
  recorded : ∀ r ∈ d.recorded, r.Ordered

/-- The desk of a worker while the generator marks all workers. -/
def Closing (batch : Nat) (key : Int32) (e : Epistle UInt32 capacity) (clock : UInt64) (d : Desk capacity) : Prop :=
  DeskInv batch key e clock .away d ∨ Spurious key e d

section Desk

variable {batch : Nat} {key other : Int32} {e e' : Epistle UInt32 capacity} {clock now : UInt64} {d : Desk capacity}
  {pc : WorkerPc capacity}

/-- What a registered worker relies on outlives every change that keeps the keys in their slots. -/
theorem Desk.At.keep (hat : d.At e key clock) (hkeeps : ∀ idx k, e.occ idx = some k → e'.occ idx = some k)
    (hregistered : ¬ d.pc.Registering) : d.At e' key clock := by
  cases hpc : d.pc with
  | announce | register => simp [hpc, WorkerPc.Registering] at hregistered
  | poll pc | confirm pc =>
    simp only [Desk.At, hpc] at hat ⊢
    exact hat.mono hkeeps
  | retire pc =>
    simp only [Desk.At, hpc] at hat ⊢
    exact hat.mono hkeeps
  | measure | start | stampStart | handle | finish | stampFinish | append => simpa only [Desk.At, hpc] using hat
  | lookup | load | release => simp only [Desk.At, hpc]
  | failed => simp only [Desk.At, hpc] at hat

/-- The generator marks the worker RUNNABLE. -/
theorem DeskInv.mark (h : DeskInv batch key e clock .away d) (hregistered : ¬ d.pc.Registering)
    (htouches : Epistle.Touches key e e') (hplaced : KeyPlaced Epistle.hash e'.occ key)
    (hholds : e'.Holds key epistleThreadRunnable) : Closing batch key e' clock d := by
  have hat : d.At e' key clock := h.access.keep htouches.keeps hregistered
  have hstill : Turn batch key e' d .away → Closing batch key e' clock d := fun hturn =>
    .inl ⟨hplaced, hturn, hat, h.log, h.times, h.recorded, h.fresh⟩
  cases h.turn with
  | starting hpc => exact absurd hpc hregistered
  | running hpc _ hloaded => exact hstill (.running hpc hholds hloaded)
  | released hpc _ hnum hrequests hbatch => exact hstill (.released hpc hholds hnum hrequests hbatch)
  | idle _ hpc _ hnum =>
    obtain ⟨hpolled, hrecorded⟩ := (DeskInv.log_iff hpc).mp h.log
    have hbatch : d.batchOf .away = [] := if_pos hnum
    rw [hbatch, List.append_nil] at hpolled
    refine .inr ⟨hplaced, hholds, ?_, hnum, hpolled, hrecorded, h.recorded⟩
    obtain ⟨get, hcase⟩ := hpc.eq_poll
    simp only [Desk.At, hcase] at hat
    simp only [Desk.Idles, hcase]
    exact hat

namespace Spurious

theorem of_touches (h : Spurious key e d) (hkeeps : ∀ idx k, e.occ idx = some k → e'.occ idx = some k)
    (hplaced : KeyPlaced Epistle.hash e'.occ key) (hholds : e'.Holds key epistleThreadRunnable) :
    Spurious key e' d where
  placed := hplaced
  holds := hholds
  access := by
    have hat := h.access
    cases hpc : d.pc with
    | poll pc | confirm pc =>
      simp only [Desk.Idles, hpc] at hat ⊢
      exact hat.mono hkeeps
    | lookup | load => simp only [Desk.Idles, hpc]
    | _ => simp only [Desk.Idles, hpc] at hat
  num := h.num
  polled := h.polled
  handled := h.handled
  recorded := h.recorded

theorem goto (h : Spurious key e d) (hidles : (d.goto pc).Idles e key) : Spurious key e (d.goto pc) :=
  ⟨h.placed, h.holds, hidles, h.num, h.polled, h.handled, h.recorded⟩

/-- The worker finds no batch and goes back to its loop. -/
theorem move (h : Spurious key e d) (hwork : d.work.isSome) (batch : Nat) (now : UInt64) :
    ∃ pc, d.move batch key now e = (e, d.goto pc) ∧ Spurious key e (d.goto pc) := by
  have hat := h.access
  have hhint : epistleThreadRunnable ≠ epistleThreadIdle := by decide
  cases hpc : d.pc with
  | poll get =>
    simp only [Desk.Idles, hpc] at hat
    rcases Epistle.getMove_holds h.placed h.holds hat with ⟨get', hmove, hat'⟩ | hmove
    · exact ⟨.poll get', by simp only [Desk.move, hpc, hmove], h.goto hat'⟩
    · exact ⟨.confirm (.test (Epistle.hash key)), by simp only [Desk.move, hpc, hmove, if_neg hhint],
        h.goto (.start _ key)⟩
  | confirm get =>
    simp only [Desk.Idles, hpc] at hat
    rcases Epistle.getMove_holds h.placed h.holds hat with ⟨get', hmove, hat'⟩ | hmove
    · exact ⟨.confirm get', by simp only [Desk.move, hpc, hmove], h.goto hat'⟩
    · exact ⟨.lookup, by simp only [Desk.move, hpc, hmove, if_true], h.goto trivial⟩
  | lookup => exact ⟨.load, by simp only [Desk.move, hpc, hwork, if_true], h.goto trivial⟩
  | load =>
    exact ⟨.poll (.test (Epistle.hash key)), by simp only [Desk.move, hpc, h.num, if_true], h.goto (.start _ key)⟩
  | _ => simp only [Desk.Idles, hpc] at hat

end Spurious

namespace Closing

theorem tick (h : Closing batch key e clock d) (hle : clock ≤ now) : Closing batch key e now d :=
  h.imp_left fun hdesk => hdesk.tick hle

/-- The accesses of others to the epistle are no concern of a worker. -/
theorem frame (h : Closing batch key e clock d) (htouches : Epistle.Touches other e e') (hne : key ≠ other) :
    Closing batch key e' clock d := by
  rcases h with hdesk | hspurious
  · exact .inl (hdesk.frame htouches hne)
  · exact .inr (hspurious.of_touches htouches.keeps (htouches.placed hne hspurious.placed)
      (htouches.holds hne hspurious.holds))

theorem mark (h : Closing batch key e clock d) (hregistered : ¬ d.pc.Registering)
    (htouches : Epistle.Touches key e e') (hplaced : KeyPlaced Epistle.hash e'.occ key)
    (hholds : e'.Holds key epistleThreadRunnable) : Closing batch key e' clock d := by
  rcases h with hdesk | hspurious
  · exact hdesk.mark hregistered htouches hplaced hholds
  · exact .inr (hspurious.of_touches htouches.keeps hplaced hholds)

/-- A registered worker has its entry. -/
theorem holds (h : Closing batch key e clock d) (hregistered : ¬ d.pc.Registering) : ∃ hint, e.Holds key hint := by
  rcases h with hdesk | hspurious
  · cases hdesk.turn with
    | starting hpc => exact absurd hpc hregistered
    | idle _ _ hholds | running _ hholds | released _ hholds => exact ⟨_, hholds⟩
  · exact ⟨_, hspurious.holds⟩

theorem placed (h : Closing batch key e clock d) : KeyPlaced Epistle.hash e.occ key :=
  h.elim (·.placed) (·.placed)

/-- An access of the worker. -/
theorem move (h : Closing batch key e clock d) (hkey : key ≠ 0) (hblank : e.Blank) (hwork : d.work.isSome) :
    Closing batch key (d.move batch key clock e).1 clock (d.move batch key clock e).2 ∧
      Epistle.Touches key e (d.move batch key clock e).1 ∧ (d.move batch key clock e).2.work.isSome := by
  rcases h with hdesk | hspurious
  · have hmoved := hdesk.move hkey hblank
    exact ⟨.inl hmoved.inv, hmoved.touches, hmoved.isSome.trans hwork⟩
  · obtain ⟨pc, hmove, hnext⟩ := hspurious.move hwork batch clock
    rw [hmove]
    exact ⟨.inr hnext, .refl key e, hwork⟩

theorem not_failed (h : Closing batch key e clock d) : d.pc ≠ .failed := by
  intro hpc
  rcases h with hdesk | hspurious
  · have hat := hdesk.access
    simp only [Desk.At, hpc] at hat
  · have hat := hspurious.access
    simp only [Desk.Idles, hpc] at hat

/-- A worker at the head of its loop has recorded what was polled for it, but for a batch that it has not taken up. -/
theorem log (h : Closing batch key e clock d) (hpolling : d.pc.Polling) :
    d.polled = d.handled ++ d.batchOf .away ∧ (d.batchOf .away).length ≤ batch ∧
      d.recorded.map (·.toArrival) = d.handled ∧ ∀ r ∈ d.recorded, r.Ordered := by
  rcases h with hdesk | hspurious
  · obtain ⟨hpolled, hrecorded⟩ := (DeskInv.log_iff hpolling).mp hdesk.log
    refine ⟨hpolled, ?_, hrecorded, hdesk.recorded⟩
    by_cases hnum : d.numRequests = 0
    · have hbatch : d.batchOf .away = [] := if_pos hnum
      simp [hbatch]
    · cases hdesk.turn with
      | starting _ _ hzero | idle _ _ _ hzero | released _ _ hzero => exact absurd hzero hnum
      | running _ _ hloaded =>
        rw [hloaded.batchOf_away, List.length_map]
        exact hloaded.bounded
  · have hbatch : d.batchOf .away = [] := if_pos hspurious.num
    rw [hbatch, List.append_nil]
    exact ⟨hspurious.polled, Nat.zero_le _, hspurious.handled, hspurious.recorded⟩

end Closing

end Desk

/-! ### Where the workers are -/

section Pc

variable {batch : Nat} {key : Int32} {e : Epistle UInt32 capacity} {now : UInt64} {d : Desk capacity}

omit [NeZero capacity] in
theorem Desk.withRequest_pc {P : WorkerPc capacity → Prop} {i : Nat} {f : Request → Desk capacity}
    (hfailed : P .failed) (hf : ∀ r, P (f r).pc) : P (d.withRequest i f).pc := by
  unfold withRequest
  cases d.requests[i]? with
  | none => exact hfailed
  | some r => exact hf r

omit [NeZero capacity] in
theorem WorkerPc.next_not_registering (num i : Nat) : ¬ (WorkerPc.next num i : WorkerPc capacity).Registering := by
  unfold WorkerPc.next
  split <;> exact id

/-- A registered worker does not register again. -/
theorem Desk.move_registered (hregistered : ¬ d.pc.Registering) : ¬ (d.move batch key now e).2.pc.Registering := by
  unfold Desk.move
  cases hpc : d.pc with
  | announce | register => simp [hpc, WorkerPc.Registering] at hregistered
  | poll get | confirm get =>
    dsimp only
    split
    · exact id
    · split <;> exact id
  | lookup =>
    dsimp only
    split <;> exact id
  | load =>
    dsimp only
    split
    · exact id
    · split <;> exact id
  | measure num =>
    dsimp only
    split
    · exact WorkerPc.next_not_registering num 0
    · exact id
  | start | finish | release => exact id
  | stampStart | handle | stampFinish =>
    exact Desk.withRequest_pc (P := fun pc => ¬ pc.Registering) id fun _ => id
  | append num i =>
    exact Desk.withRequest_pc (P := fun pc => ¬ pc.Registering) id fun _ => WorkerPc.next_not_registering num (i + 1)
  | retire add =>
    dsimp only
    split <;> exact id
  | failed =>
    dsimp only
    rw [hpc]
    exact id

/-- After the head of the loop the worker polls. -/
theorem Desk.pc_of_loops (hloops : d.loops key e = true) :
    (d.move batch key now e).2.pc = .poll (.test (Epistle.hash key)) := by
  unfold Desk.loops at hloops
  unfold Desk.move
  cases hpc : d.pc with
  | register add | retire add =>
    simp only [hpc, decide_eq_true_eq] at hloops
    dsimp only
    split
    · rfl
    · rename_i hne heq
      rw [heq] at hloops
      exact absurd hloops hne
  | poll get =>
    simp only [hpc, decide_eq_true_eq] at hloops
    simp only [hloops, if_true, Desk.goto]
  | load =>
    simp only [hpc, decide_eq_true_eq] at hloops
    simp only [hloops, if_true, Desk.goto]
  | _ => simp [hpc] at hloops

namespace HandOff

variable {s : HandOff S capacity}

omit [NeZero capacity] in
theorem setDesk_pc {w : Fin S.numWorkers} {d : Desk capacity} (hpc : d.pc = (s.desk w).pc) (v : Fin S.numWorkers) :
    ((s.setDesk w d).desk v).pc = (s.desk v).pc := by
  by_cases hv : v = w
  · subst hv
    simpa [setDesk] using hpc
  · rw [setDesk_desk_of_ne hv]

/-- The generator moves no worker, and not `main`. -/
theorem moveGenerator_frame (input : Input) :
    (∀ v, ((s.moveGenerator input).desk v).pc = (s.desk v).pc) ∧ (s.moveGenerator input).main = s.main := by
  unfold moveGenerator
  cases hpc : s.generator with
  | launch | receive | assign | stopped | failed => exact ⟨fun _ => rfl, rfl⟩
  | wait | enter =>
    dsimp only
    split <;> exact ⟨fun _ => rfl, rfl⟩
  | look w get | confirm w get =>
    dsimp only
    split
    · exact ⟨fun _ => rfl, rfl⟩
    · split <;> exact ⟨fun _ => rfl, rfl⟩
  | expectZero w | testEmpty w | bound w =>
    apply withWork_of (P := fun t => (∀ v, (t.desk v).pc = (s.desk v).pc) ∧ t.main = s.main) ⟨fun _ => rfl, rfl⟩
    intro work
    split <;> exact ⟨fun _ => rfl, rfl⟩
  | clear w | push w k r | store w num =>
    apply withWork_of (P := fun t => (∀ v, (t.desk v).pc = (s.desk v).pc) ∧ t.main = s.main) ⟨fun _ => rfl, rfl⟩
    intro work
    refine ⟨fun v => ?_, rfl⟩
    show ((s.setDesk w _).desk v).pc = _
    apply setDesk_pc
    rfl
  | arrive w k =>
    dsimp only
    split
    · exact ⟨fun _ => rfl, rfl⟩
    · split <;> exact ⟨fun _ => rfl, rfl⟩
  | measure w =>
    apply withWork_of (P := fun t => (∀ v, (t.desk v).pc = (s.desk v).pc) ∧ t.main = s.main) ⟨fun _ => rfl, rfl⟩
    intro work
    exact ⟨fun _ => rfl, rfl⟩
  | hand w add =>
    dsimp only
    split <;> exact ⟨fun _ => rfl, rfl⟩

omit [NeZero capacity] in
theorem moveMain_pc (v : Fin S.numWorkers) : (s.moveMain.desk v).pc = (s.desk v).pc := by
  unfold moveMain
  split
  · split
    · split <;> rfl
    · rfl
  · split
    · show ((s.setDesk _ _).desk v).pc = _
      apply setDesk_pc
      rfl
    · rfl
  · rfl
  · rfl

end HandOff

end Pc

/-! ### The invariant -/

/-- The hand-off while the generator marks all workers. -/
structure Closed (s : HandOff S capacity) : Prop where
  blank : s.epistle.Blank
  desks : ∀ w, Closing S.batch (S.tid w) s.epistle s.clock (s.desk w)
  works : ∀ w, (s.desk w).work.isSome
  generator : s.generator = .enter 0

namespace Closed

variable {s : HandOff S capacity}

/-- The hand-off stops between two rounds over the workers. -/
theorem of_inv (h : Inv s) (hmain : s.main = .done) (hgenerator : s.generator = .enter 0) : Closed s where
  blank := h.blank
  desks w := by
    have hdesk := h.desks w
    rw [hgenerator] at hdesk
    exact .inl hdesk
  works w := by
    rw [h.inserted w, hmain]
    trivial
  generator := hgenerator

theorem tick (h : Closed s) {now : UInt64} (hle : s.clock ≤ now) : Closed { s with clock := now } :=
  ⟨h.blank, fun w => (h.desks w).tick hle, h.works, h.generator⟩

theorem worker (h : Closed s) (w : Fin S.numWorkers) :
    Closed (s.moveWorker w s.clock) ∧
      Epistle.Touches (S.tid w) s.epistle (s.moveWorker w s.clock).epistle := by
  obtain ⟨hdesk, htouches, hwork⟩ := (h.desks w).move (S.tid_ne_zero w) h.blank (h.works w)
  rw [HandOff.moveWorker]
  generalize (s.desk w).move S.batch (S.tid w) s.clock s.epistle = next at hdesk htouches hwork
  obtain ⟨e', d'⟩ := next
  refine ⟨⟨htouches.blank h.blank, fun v => ?_, fun v => ?_, h.generator⟩, htouches⟩
  · show Closing _ _ e' s.clock (Function.update s.desk w d' v)
    by_cases hv : v = w
    · subst hv
      rw [Function.update_self]
      exact hdesk
    · rw [Function.update_of_ne hv]
      exact (h.desks v).frame htouches fun heq => hv (S.tid_injective heq)
  · show (Function.update s.desk w d' v).work.isSome = true
    by_cases hv : v = w
    · subst hv
      rw [Function.update_self]
      exact hwork
    · rw [Function.update_of_ne hv]
      exact h.works v

/-- The generator has marked the worker `w`. -/
theorem mark (h : Closed s) {w : Fin S.numWorkers} (hregistered : ¬ (s.desk w).pc.Registering)
    {epistle : Epistle UInt32 capacity} (htouches : Epistle.Touches (S.tid w) s.epistle epistle)
    (hplaced : KeyPlaced Epistle.hash epistle.occ (S.tid w))
    (hholds : epistle.Holds (S.tid w) epistleThreadRunnable) : Closed { s with epistle } := by
  refine ⟨htouches.blank h.blank, fun v => ?_, h.works, h.generator⟩
  by_cases hv : v = w
  · subst hv
    exact (h.desks v).mark hregistered htouches hplaced hholds
  · exact (h.desks v).frame htouches fun heq => hv (S.tid_injective heq)

end Closed

namespace Experiment

variable {s t : Experiment S capacity}

/-- Whom `main` has joined. -/
structure Joined (s : Experiment S capacity) : Prop where
  ahead : ∀ i, s.main = .join i → ∀ w : Fin S.numWorkers, w < i → s.worker w = .exited
  workers : s.main.joinedWorkers = true → ∀ w, s.worker w = .exited
  generator : s.main.joinedAll = true → s.generator = .exited

omit [NeZero capacity] in
/-- Who has exited stays so. -/
theorem Joined.mono (h : s.Joined) (hmain : t.main = s.main) (hworker : ∀ w, s.worker w = .exited → t.worker w = .exited)
    (hgenerator : s.generator = .exited → t.generator = .exited) : t.Joined where
  ahead i hpc w hw := hworker w (h.ahead i (hmain ▸ hpc) w hw)
  workers hpc w := hworker w (h.workers (hmain ▸ hpc) w)
  generator hpc := hgenerator (h.generator (hmain ▸ hpc))

omit [NeZero capacity] in
/-- `main` sets the workers up, or has told everybody to exit and joined nobody yet. -/
theorem Joined.none (hmain : s.main = .running ∨ s.main = .print false) : s.Joined := by
  rcases hmain with hpc | hpc <;> constructor <;> simp [hpc, ExitPc.joinedWorkers, ExitPc.joinedAll]

structure Inv (s : Experiment S capacity) : Prop where
  working : s.generator = .working → Workload.Inv s.handOff
  closed : s.generator ≠ .working → Closed s.handOff
  marks : ∀ w pc, s.generator = .mark w pc → Epistle.Seeks s.handOff.epistle.occ (S.tid w) pc
  exit : s.generator ≠ .working → s.exitAll = true
  running : s.exitAll = true ↔ s.main ≠ .running
  done : s.exitAll = true → s.handOff.main = .done
  registered : s.exitAll = true → ∀ w, ¬ (s.handOff.desk w).pc.Registering
  heads : ∀ w, s.worker w ≠ .inside → (s.handOff.desk w).pc.Polling
  joined : s.Joined

namespace Inv

theorem init {e : Epistle UInt32 capacity} (hlacks : ∀ w, e.Lacks (S.tid w)) (hblank : e.Blank) :
    Inv (Experiment.init S e) where
  working _ := .init hlacks hblank
  closed hgenerator := absurd rfl hgenerator
  marks _ _ hgenerator := by cases hgenerator
  exit hgenerator := absurd rfl hgenerator
  running := by simp [Experiment.init]
  done hexit := by cases hexit
  registered hexit := by cases hexit
  heads _ hworker := absurd rfl hworker
  joined := .none (.inl rfl)

theorem tick (h : Inv s) {now : UInt64} (hle : s.handOff.clock ≤ now) :
    Inv { s with handOff := { s.handOff with clock := now } } where
  working hgenerator := (h.working hgenerator).tick hle
  closed hgenerator := (h.closed hgenerator).tick hle
  marks := h.marks
  exit := h.exit
  running := h.running
  done := h.done
  registered := h.registered
  heads := h.heads
  joined := h.joined.mono rfl (fun _ => id) id

/-! ### Workers -/

/-- A worker at the head of its loop tests `exit_all`. -/
theorem head (h : Inv s) {w : Fin S.numWorkers} (hworker : s.worker w = .head) (now : UInt64) :
    Inv (s.moveWorker w now) := by
  have hpolling := h.heads w (by simp [hworker])
  simp only [moveWorker, hworker]
  constructor
  case working => exact h.working
  case closed => exact h.closed
  case marks => exact h.marks
  case exit => exact h.exit
  case running => exact h.running
  case done => exact h.done
  case registered => exact h.registered
  case heads =>
    intro v hv
    by_cases heq : v = w
    · exact heq ▸ hpolling
    · dsimp only at hv
      rw [Function.update_of_ne heq] at hv
      exact h.heads v hv
  case joined =>
    refine h.joined.mono rfl (fun v hv => ?_) id
    have hne : v ≠ w := fun heq => by simp [heq, hworker] at hv
    exact (Function.update_of_ne hne ..).trans hv

theorem inside (h : Inv s) {w : Fin S.numWorkers} (hworker : s.worker w = .inside) :
    Inv (s.moveWorker w s.handOff.clock) := by
  have hself : ((s.handOff.moveWorker w s.handOff.clock).desk w) =
      ((s.handOff.desk w).move S.batch (S.tid w) s.handOff.clock s.handOff.epistle).2 := Function.update_self ..
  have hother : ∀ v, v ≠ w → (s.handOff.moveWorker w s.handOff.clock).desk v = s.handOff.desk v :=
    fun v hv => Function.update_of_ne hv ..
  simp only [moveWorker, hworker]
  constructor
  case working => exact fun hgenerator => (h.working hgenerator).worker w
  case closed => exact fun hgenerator => ((h.closed hgenerator).worker w).1
  case marks =>
    intro v pc hgenerator
    have hmark : s.generator = .mark v pc := hgenerator
    have htouches := ((h.closed (by simp [hmark])).worker w).2
    exact (h.marks v pc hmark).mono htouches.keeps
  case exit => exact h.exit
  case running => exact h.running
  case done => exact h.done
  case registered =>
    intro hexit v
    by_cases hv : v = w
    · subst hv
      rw [hself]
      exact Desk.move_registered (h.registered hexit v)
    · rw [hother v hv]
      exact h.registered hexit v
  case heads =>
    intro v hv
    dsimp only at hv ⊢
    by_cases heq : v = w
    · subst heq
      have hloops : (s.handOff.desk v).loops (S.tid v) s.handOff.epistle = true := by
        by_contra hloops
        rw [Function.update_self, if_neg hloops] at hv
        exact hv rfl
      rw [hself, Desk.pc_of_loops hloops]
      trivial
    · rw [Function.update_of_ne heq] at hv
      rw [hother v heq]
      exact h.heads v hv
  case joined =>
    refine h.joined.mono rfl (fun v hv => ?_) id
    have hne : v ≠ w := fun heq => by simp [heq, hworker] at hv
    exact (Function.update_of_ne hne ..).trans hv

theorem worker (h : Inv s) (w : Fin S.numWorkers) : Inv (s.moveWorker w s.handOff.clock) := by
  cases hworker : s.worker w with
  | head => exact h.head hworker _
  | inside => exact h.inside hworker
  | exited =>
    simp only [moveWorker, hworker]
    exact h

/-! ### The generator -/

theorem nextMark_ne_working (i : Nat) : (nextMark S i : GeneratorLife S.numWorkers capacity) ≠ .working := by
  unfold nextMark
  split <;> simp

theorem marks_nextMark {occ : Fin capacity → Option Int32} {i : Nat} (w : Fin S.numWorkers) (pc : Epistle.AddPc capacity)
    (hmark : nextMark S i = .mark w pc) : Epistle.Seeks occ (S.tid w) pc := by
  unfold nextMark at hmark
  split at hmark
  · obtain ⟨rfl, rfl⟩ := GeneratorLife.mark.inj hmark
    exact .start occ _
  · cases hmark

/-- The generator goes on in its second loop, on the table as its access has left it. -/
theorem goto_closed (h : Inv s) (hgenerator : s.generator ≠ .working) (hnot : s.generator ≠ .exited)
    {epistle : Epistle UInt32 capacity} (hclosed : Closed { s.handOff with epistle })
    {life : GeneratorLife S.numWorkers capacity} (hlife : life ≠ .working)
    (hmarks : ∀ w pc, life = .mark w pc → Epistle.Seeks epistle.occ (S.tid w) pc) :
    Inv { s with handOff := { s.handOff with epistle }, generator := life } where
  working hworking := absurd hworking hlife
  closed _ := hclosed
  marks := hmarks
  exit _ := h.exit hgenerator
  running := h.running
  done := h.done
  registered := h.registered
  heads := h.heads
  joined := h.joined.mono rfl (fun _ hv => hv) fun hexited => absurd hexited hnot

theorem generator_working (h : Inv s) (hgenerator : s.generator = .working) (input : Input)
    (hnow : s.handOff.clock = input.now) : Inv (s.moveGenerator input) := by
  have hinv := h.working hgenerator
  simp only [moveGenerator, hgenerator]
  split
  · rename_i hleaves
    obtain ⟨henter, hexit⟩ := hleaves
    constructor
    case working => exact fun hworking => by cases hworking
    case closed => exact fun _ => .of_inv hinv (h.done hexit) henter
    case marks => exact fun _ _ hmark => by cases hmark
    case exit => exact fun _ => hexit
    case running => exact h.running
    case done => exact h.done
    case registered => exact h.registered
    case heads => exact h.heads
    case joined => exact h.joined.mono rfl (fun _ hv => hv) fun hexited => by simp [hgenerator] at hexited
  · have hframe := s.handOff.moveGenerator_frame input
    constructor
    case working => exact fun _ => hinv.generator_step input hnow
    case closed => exact fun hworking => absurd rfl hworking
    case marks => exact fun _ _ hmark => by cases hmark
    case exit => exact fun hworking => absurd rfl hworking
    case running => exact h.running
    case done => exact fun hexit => hframe.2.trans (h.done hexit)
    case registered =>
      intro hexit v
      show ¬ ((s.handOff.moveGenerator input).desk v).pc.Registering
      rw [hframe.1]
      exact h.registered hexit v
    case heads =>
      intro v hv
      show ((s.handOff.moveGenerator input).desk v).pc.Polling
      rw [hframe.1]
      exact h.heads v hv
    case joined =>
      exact h.joined.mono rfl (fun _ hv => hv) fun hexited => by simp [hgenerator] at hexited

/-- The generator is in an `add` that marks the worker `w`. -/
theorem generator_mark (h : Inv s) {w : Fin S.numWorkers} {pc : Epistle.AddPc capacity}
    (hgenerator : s.generator = .mark w pc) (input : Input) : Inv (s.moveGenerator input) := by
  have hmarking : s.generator ≠ .working := by simp [hgenerator]
  have hnot : s.generator ≠ .exited := by simp [hgenerator]
  have hclosed := h.closed hmarking
  have hregistered := h.registered (h.exit hmarking) w
  obtain ⟨hint, hholds⟩ := (hclosed.desks w).holds hregistered
  rcases Epistle.addMove_seeks epistleThreadRunnable (hclosed.desks w).placed hholds (h.marks w pc hgenerator) with
    ⟨pc', hmove, hseeks, hgoes⟩ | ⟨e', hmove, htouches, hplaced, hholds'⟩
  · have hnext : s.moveGenerator input = { s with generator := .mark w pc' } := by
      simp only [moveGenerator, hgenerator]
      cases pc' <;> first | exact absurd rfl hgoes | simp only [hmove]
    rw [hnext]
    apply h.goto_closed hmarking hnot hclosed (by simp)
    intro v pc'' hmark
    obtain ⟨rfl, rfl⟩ := GeneratorLife.mark.inj hmark
    exact hseeks
  · have hnext : s.moveGenerator input =
        { s with handOff := { s.handOff with epistle := e' }, generator := nextMark S (w + 1) } := by
      simp only [moveGenerator, hgenerator, hmove]
    rw [hnext]
    exact h.goto_closed hmarking hnot (hclosed.mark hregistered htouches hplaced hholds') (nextMark_ne_working _)
      fun v pc'' hmark => marks_nextMark v pc'' hmark

theorem generator (h : Inv s) (input : Input) (hnow : s.handOff.clock = input.now) : Inv (s.moveGenerator input) := by
  cases hgenerator : s.generator with
  | working => exact h.generator_working hgenerator input hnow
  | mark w pc => exact h.generator_mark hgenerator input
  | exited =>
    simp only [moveGenerator, hgenerator]
    exact h
  | head =>
    have hmarking : s.generator ≠ .working := by simp [hgenerator]
    have hnot : s.generator ≠ .exited := by simp [hgenerator]
    simp only [moveGenerator, hgenerator]
    by_cases hexit : s.exitGenerator = true
    · rw [if_pos hexit]
      exact h.goto_closed hmarking hnot (h.closed hmarking) (by simp) fun v pc hmark => by cases hmark
    · rw [if_neg hexit]
      exact h.goto_closed hmarking hnot (h.closed hmarking) (nextMark_ne_working 0)
        fun v pc hmark => marks_nextMark v pc hmark

/-! ### main -/

/-- `main` goes on with its joins. -/
theorem goto_main (h : Inv s) (hmain : s.main ≠ .running) {main : ExitPc} (hnext : main ≠ .running)
    {exitGenerator : Bool} {runtime : UInt64} (hjoined : Joined { s with exitGenerator, runtime, main }) :
    Inv { s with exitGenerator, runtime, main } where
  working := h.working
  closed := h.closed
  marks := h.marks
  exit := h.exit
  running := iff_of_true (h.running.mpr hmain) hnext
  done := h.done
  registered := h.registered
  heads := h.heads
  joined := hjoined

theorem main_running (h : Inv s) (hmain : s.main = .running) {signal : Signal}
    (hsettled : s.handOff.main = .done → signal.shouldExit = true → ∀ w, ¬ (s.handOff.desk w).pc.Registering) :
    Inv (s.moveMain signal) := by
  have hnotExit : s.exitAll ≠ true := fun hexit => h.running.mp hexit hmain
  have hworking : s.generator = .working := by
    by_contra hnot
    exact hnotExit (h.exit hnot)
  have hinv := h.working hworking
  simp only [moveMain, hmain]
  split
  · rename_i hdone
    split
    · rename_i hshould
      constructor
      case working => exact h.working
      case closed => exact h.closed
      case marks => exact h.marks
      case exit => exact fun _ => rfl
      case running => simp
      case done => exact fun _ => hdone
      case registered => exact fun _ => hsettled hdone hshould
      case heads => exact h.heads
      case joined => exact .none (.inr rfl)
    · exact h
  · constructor
    case working => exact fun _ => hinv.main
    case closed => exact fun hnot => absurd hworking hnot
    case marks => exact fun w pc hmark => by simp [hworking] at hmark
    case exit => exact fun hnot => absurd hworking hnot
    case running => exact iff_of_false hnotExit (by simp)
    case done => exact fun hexit => absurd hexit hnotExit
    case registered => exact fun hexit => absurd hexit hnotExit
    case heads =>
      intro v hv
      show (s.handOff.moveMain.desk v).pc.Polling
      rw [HandOff.moveMain_pc]
      exact h.heads v hv
    case joined => exact .none (.inl rfl)

theorem main (h : Inv s) {signal : Signal}
    (hsettled : s.main = .running → s.handOff.main = .done → signal.shouldExit = true →
      ∀ w, ¬ (s.handOff.desk w).pc.Registering) : Inv (s.moveMain signal) := by
  have hjoined := h.joined
  cases hmain : s.main with
  | running => exact h.main_running hmain (hsettled hmain)
  | print again =>
    have hnot : s.main ≠ .running := by simp [hmain]
    cases again with
    | false =>
      obtain ⟨hne, hworkers, hall, hjoin⟩ :=
        printed_cases S.options s.startTime (signal.now - s.startTime) signal.found false
      simp only [moveMain, hmain]
      refine h.goto_main hnot hne ⟨fun i hi w hw => ?_, fun hpc => ?_, fun hpc => ?_⟩
      · rw [hjoin i hi] at hw
        exact absurd hw (Nat.not_lt_zero _)
      · rw [hworkers] at hpc
        cases hpc
      · rw [hall] at hpc
        cases hpc
    | true =>
      obtain ⟨hne, -, -, hjoin⟩ := printed_cases S.options s.startTime s.runtime s.requests true
      simp only [moveMain, hmain]
      refine h.goto_main hnot hne ⟨fun i hi w hw => ?_, fun _ => ?_, fun _ => ?_⟩
      · rw [hjoin i hi] at hw
        exact absurd hw (Nat.not_lt_zero _)
      · exact hjoined.workers (by simp [hmain, ExitPc.joinedWorkers])
      · exact hjoined.generator (by simp [hmain, ExitPc.joinedAll])
  | join i =>
    have hnot : s.main ≠ .running := by simp [hmain]
    have hahead := hjoined.ahead i hmain
    simp only [moveMain, hmain]
    split
    · rename_i hi
      split
      · rename_i hexited
        refine h.goto_main hnot (by simp) ⟨fun k hk w hw => ?_, by simp [ExitPc.joinedWorkers], by simp [ExitPc.joinedAll]⟩
        obtain rfl := ExitPc.join.inj hk
        rcases Nat.lt_succ_iff_lt_or_eq.mp hw with hlt | heq
        · exact hahead w hlt
        · obtain rfl : w = ⟨i, hi⟩ := Fin.ext heq
          exact hexited
      · exact h
    · rename_i hi
      exact h.goto_main hnot (by simp) ⟨by simp, fun _ w => hahead w (Nat.lt_of_lt_of_le w.isLt (Nat.le_of_not_lt hi)),
        by simp [ExitPc.joinedAll]⟩
  | joinGenerator =>
    have hnot : s.main ≠ .running := by simp [hmain]
    have hexited := hjoined.workers (by simp [hmain, ExitPc.joinedWorkers])
    simp only [moveMain, hmain]
    split
    · rename_i hgenerator
      exact h.goto_main hnot (by simp) ⟨by simp, fun _ => hexited, fun _ => hgenerator⟩
    · exact h
  | finished | stopped again stop =>
    simp only [moveMain, hmain]
    exact h

theorem step (h : Inv s) {action : Thread S.numWorkers × Signal} (hstep : SettledStep s action t) : Inv t := by
  obtain ⟨thread, signal⟩ := action
  obtain ⟨⟨hle, rfl⟩, hsettled⟩ := hstep
  have hticked := h.tick hle
  cases thread with
  | main => exact hticked.main hsettled
  | generator => exact hticked.generator signal.toInput rfl
  | worker w => exact hticked.worker w

theorem not_failed (h : Inv s) : s.handOff.generator ≠ .failed ∧ ∀ w, (s.handOff.desk w).pc ≠ .failed := by
  by_cases hworking : s.generator = .working
  · exact (h.working hworking).not_failed
  · have hclosed := h.closed hworking
    exact ⟨by simp [hclosed.generator], fun w => (hclosed.desks w).not_failed⟩

theorem of_runs {e : Epistle UInt32 capacity} (hlacks : ∀ w, e.Lacks (S.tid w)) (hblank : e.Blank)
    {actions : List (Thread S.numWorkers × Signal)} (hrun : Runs SettledStep (Experiment.init S e) actions s) : Inv s :=
  hrun.invariant (.init hlacks hblank) fun _ _ _ hinv hstep => hinv.step hstep

/-- What the workers have recorded when `main` has joined everybody. -/
theorem finished (h : Inv s) (hfinished : s.main.joinedAll = true) (w : Fin S.numWorkers) :
    s.worker w = .exited ∧
      (s.handOff.desk w).polled = (s.handOff.desk w).handled ++ (s.handOff.desk w).batchOf .away ∧
      ((s.handOff.desk w).batchOf .away).length ≤ S.batch ∧
      (s.handOff.desk w).recorded.map (·.toArrival) = (s.handOff.desk w).handled ∧
      ∀ r ∈ (s.handOff.desk w).recorded, r.Ordered := by
  have hexited := h.joined.workers (ExitPc.joinedWorkers_of_joinedAll hfinished) w
  have hpolling := h.heads w (by simp [hexited])
  exact ⟨hexited, ((h.closed (by simp [h.joined.generator hfinished])).desks w).log hpolling⟩

end Inv

/-- **The experiment ends cleanly.** In every run in which the workers have registered before `exit_all` is set, no assert of a worker or of the generator about the hand-off fails, before or after; and when `main` has joined everybody, each worker has handled and recorded, once and in order, all that was polled for it but the batch of at most `batch` requests that it has not taken up, and the times of the recorded requests are in order. -/
theorem ends_cleanly {e : Epistle UInt32 capacity} (hlacks : ∀ w, e.Lacks (S.tid w)) (hblank : e.Blank)
    {actions : List (Thread S.numWorkers × Signal)} (hrun : Runs SettledStep (Experiment.init S e) actions s) :
    (s.handOff.generator ≠ .failed ∧ ∀ w, (s.handOff.desk w).pc ≠ .failed) ∧
    (s.main.joinedAll = true → ∀ w, s.worker w = .exited ∧
      (s.handOff.desk w).polled = (s.handOff.desk w).handled ++ (s.handOff.desk w).batchOf .away ∧
      ((s.handOff.desk w).batchOf .away).length ≤ S.batch ∧
      (s.handOff.desk w).recorded.map (·.toArrival) = (s.handOff.desk w).handled ∧
      ∀ r ∈ (s.handOff.desk w).recorded, r.Ordered) := by
  have h := Inv.of_runs hlacks hblank hrun
  exact ⟨h.not_failed, h.finished⟩

/-! ### A run -/

theorem moveGenerator_clock (input : Input) : (s.moveGenerator input).handOff.clock = s.handOff.clock := by
  unfold moveGenerator
  split
  · split
    · rfl
    · exact HandOff.moveGenerator_clock input s.handOff
  · rfl
  · split <;> rfl
  · rfl

theorem moveWorker_clock (w : Fin S.numWorkers) (now : UInt64) :
    (s.moveWorker w now).handOff.clock = s.handOff.clock := by
  cases hworker : s.worker w with
  | head | exited => simp only [moveWorker, hworker]
  | inside =>
    simp only [moveWorker, hworker]
    rfl

theorem move_clock (thread : Thread S.numWorkers) (signal : Signal) :
    (s.move thread signal).handOff.clock = signal.now := by
  cases thread with
  | generator => exact moveGenerator_clock signal.toInput
  | worker w => exact moveWorker_clock w signal.now
  | main =>
    show (moveMain _ _).handOff.clock = _
    rcases moveMain_handOff signal { s with handOff := { s.handOff with clock := signal.now } } with h | h
    · rw [h]
      exact HandOff.move_clock .main signal.toInput s.handOff
    · rw [h]

/-- The threads move one after the other at one time, and no signal comes. -/
theorem runs_moves {signal : Signal} (hquiet : signal.shouldExit = false) (threads : List (Thread S.numWorkers))
    (hle : s.handOff.clock ≤ signal.now) :
    Runs SettledStep s (threads.map fun thread => (thread, signal))
      (threads.foldl (fun s thread => s.move thread signal) s) := by
  induction threads generalizing s with
  | nil => exact .nil
  | cons thread threads ih =>
    have hsettled : s.Settled (thread, signal) := by
      cases thread with
      | main => exact fun _ _ hshould => by simp [hquiet] at hshould
      | generator | worker => trivial
    apply Runs.cons ⟨⟨hle, rfl⟩, hsettled⟩
    apply ih
    rw [move_clock]
    exact UInt64.le_refl _

end Experiment

open Experiment

def quiet : Signal := ⟨firstInput, false, []⟩

def upToExit : List (Thread oneWorker.numWorkers) :=
  List.replicate 5 (.worker theWorker) ++ List.replicate 4 .main ++ List.replicate 22 .generator ++
    List.replicate 20 (.worker theWorker)

def fromExit : List (Thread oneWorker.numWorkers) :=
  .worker theWorker :: List.replicate 6 .generator ++ [.main, .main, .main, .generator, .main, .main]

/-- The worker has handled a batch and is back at its loop. -/
def beforeExit (capacity : Nat) [NeZero capacity] : Experiment oneWorker capacity :=
  upToExit.foldl (fun s thread => s.move thread quiet) (.init oneWorker Epistle.init)

/-- `main` sets `exit_all`, and everybody is joined, all at the time of `input`. -/
def exitWith (input : Input) (capacity : Nat) [NeZero capacity] : Experiment oneWorker capacity :=
  fromExit.foldl (fun s thread => s.move thread ⟨input, false, []⟩) ((beforeExit capacity).move .main ⟨input, true, []⟩)

def afterExit (capacity : Nat) [NeZero capacity] : Experiment oneWorker capacity := exitWith firstInput capacity

theorem runs_exitWith (capacity : Nat) [NeZero capacity] {input : Input} (hle : firstInput.now ≤ input.now)
    (hclock : (beforeExit capacity).handOff.clock = firstInput.now)
    (hpolling : ∀ w, ((beforeExit capacity).handOff.desk w).pc = .poll (.test (Epistle.hash 5))) :
    ∃ actions, (∀ action ∈ actions, action.2.toInput = firstInput ∨ action.2.toInput = input) ∧
      Runs SettledStep (Experiment.init oneWorker Epistle.init) actions (exitWith input capacity) := by
  have hbefore : Runs SettledStep (Experiment.init oneWorker Epistle.init) _ (beforeExit capacity) :=
    runs_moves rfl upToExit UInt64.zero_le
  have hsettled : (beforeExit capacity).Settled (.main, ⟨input, true, []⟩) := by
    intro _ _ _ w
    rw [hpolling w]
    exact id
  have hexit : SettledStep (beforeExit capacity) (.main, ⟨input, true, []⟩)
      ((beforeExit capacity).move .main ⟨input, true, []⟩) := ⟨⟨hclock ▸ hle, rfl⟩, hsettled⟩
  have hafter : Runs SettledStep ((beforeExit capacity).move .main ⟨input, true, []⟩) _ (exitWith input capacity) :=
    runs_moves rfl fromExit (by rw [move_clock]; exact UInt64.le_refl _)
  refine ⟨_, ?_, (hbefore.snoc hexit).append hafter⟩
  intro action hmem
  simp only [List.mem_append, List.mem_map, List.mem_singleton] at hmem
  rcases hmem with (⟨_, -, rfl⟩ | rfl) | ⟨_, -, rfl⟩
  · exact .inl rfl
  · exact .inr rfl
  · exact .inr rfl

set_option maxRecDepth 8000 in
theorem runs_afterExit : ∃ actions, (∀ action ∈ actions, action.2.toInput = firstInput) ∧
    Runs SettledStep (Experiment.init oneWorker Epistle.init) actions (afterExit 4) := by
  obtain ⟨actions, hinput, hrun⟩ := runs_exitWith 4 (UInt64.le_refl firstInput.now) (by decide) (by decide)
  exact ⟨actions, fun action hmem => (hinput action hmem).elim id id, hrun⟩

set_option maxRecDepth 8000 in
theorem ends_cleanly_first :
    (afterExit 4).main = .finished ∧ ((afterExit 4).handOff.desk theWorker).handled = [⟨7, 7, 7, .get 1⟩] ∧
    ((afterExit 4).handOff.desk theWorker).recorded.map (·.toArrival) = [⟨7, 7, 7, .get 1⟩] := by
  have hlacks : ∀ w, (Epistle.init : Epistle UInt32 4).Lacks (oneWorker.tid w) := fun _ idx hidx => by
    rw [Epistle.occ_init] at hidx
    cases hidx
  obtain ⟨actions, -, hrun⟩ := runs_afterExit
  have hfinished : (afterExit 4).main = .finished := by decide
  have hhandled : ((afterExit 4).handOff.desk theWorker).handled = [⟨7, 7, 7, .get 1⟩] := by decide
  obtain ⟨-, hjoined⟩ := ends_cleanly hlacks Epistle.blank_init hrun
  obtain ⟨-, -, -, hrecorded, -⟩ := hjoined (by rw [hfinished]; rfl) theWorker
  exact ⟨hfinished, hhandled, hrecorded.trans hhandled⟩

end Workload

end CosUserspace
