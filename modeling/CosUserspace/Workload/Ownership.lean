import CosUserspace.Library.Runs
import CosUserspace.Workload.HandOff

/-!
# Who owns a batch

Between a worker and the generator a batch has one owner at a time. `Turn` lists the five situations the two can be in, by the program counter of the worker, its entry in the epistle and `num_requests`; `Desk.Log` says how far the requests of the batch have got. Every access of a thread keeps this for its own worker, and the accesses of the others do not touch it.
-/

namespace CosUserspace

namespace Workload

variable {capacity : Nat} [NeZero capacity]

/-- Where the generator stands with one worker. -/
inductive Stage
  | away
  /-- it has found the worker idle; `cleared` says that the vector holds the new batch only -/
  | filling (cleared : Bool)
  /-- it has stored the size of the batch -/
  | handing
  deriving DecidableEq

omit [NeZero capacity] in
def GeneratorPc.stage {n : Nat} (w : Fin n) : GeneratorPc n capacity → Stage
  | .expectZero v | .clear v => if v = w then .filling false else .away
  | .arrive v _ | .receive v _ _ | .assign v _ _ | .push v _ _ | .testEmpty v | .bound v | .measure v | .store v _
  | .stopped v => if v = w then .filling true else .away
  | .confirm v _ | .hand v _ => if v = w then .handing else .away
  | .wait | .launch | .enter _ | .look _ _ | .failed => .away

namespace WorkerPc

def Registering : WorkerPc capacity → Prop
  | .announce | .register _ => True
  | _ => False

def Polling : WorkerPc capacity → Prop
  | .poll _ => True
  | _ => False

def Retiring : WorkerPc capacity → Prop
  | .retire _ => True
  | _ => False

/-- The worker has found itself RUNNABLE and not yet stored zero. -/
def Busy : WorkerPc capacity → Prop
  | .announce | .register _ | .poll _ | .retire _ | .failed => False
  | _ => True

/-- The worker is at its batch, up to its mark as IDLE. -/
def Handling : WorkerPc capacity → Prop
  | .announce | .register _ | .poll _ | .failed => False
  | _ => True

section

variable {pc : WorkerPc capacity}

omit [NeZero capacity]

theorem Polling.eq_poll (hpc : pc.Polling) : ∃ get, pc = .poll get := by
  cases pc with
  | poll get => exact ⟨get, rfl⟩
  | _ => exact absurd hpc id

theorem Polling.not_registering (hpc : pc.Polling) : ¬ pc.Registering := by
  obtain ⟨get, rfl⟩ := hpc.eq_poll
  exact id

theorem Retiring.eq_retire (hpc : pc.Retiring) : ∃ add, pc = .retire add := by
  cases pc with
  | retire add => exact ⟨add, rfl⟩
  | _ => exact absurd hpc id

theorem Retiring.not_registering (hpc : pc.Retiring) : ¬ pc.Registering := by
  obtain ⟨add, rfl⟩ := hpc.eq_retire
  exact id

theorem Retiring.not_polling (hpc : pc.Retiring) : ¬ pc.Polling := by
  obtain ⟨add, rfl⟩ := hpc.eq_retire
  exact id

theorem Busy.not_registering (hpc : pc.Busy) : ¬ pc.Registering := by
  cases pc with
  | announce | register => exact absurd hpc id
  | _ => exact id

theorem Busy.not_polling (hpc : pc.Busy) : ¬ pc.Polling := by
  cases pc with
  | poll => exact absurd hpc id
  | _ => exact id

theorem Busy.not_retiring (hpc : pc.Busy) : ¬ pc.Retiring := by
  cases pc with
  | retire => exact absurd hpc id
  | _ => exact id

end

end WorkerPc

/-- The times of a request that a worker has handled. -/
structure Request.Ordered (r : Request) : Prop where
  generated_le : r.requestGenerated ≤ r.requestReceived
  received_le : r.requestReceived ≤ r.requestAssigned
  assigned_le : r.requestAssigned ≤ r.requestStart
  start_le : r.requestStart ≤ r.requestFinished

/-- The times of a request that the generator has put into a vector. -/
structure Arrival.Ordered (clock : UInt64) (r : Arrival) : Prop where
  generated_le : r.requestGenerated ≤ r.requestReceived
  received_le : r.requestReceived ≤ r.requestAssigned
  assigned_le : r.requestAssigned ≤ clock

namespace Desk

/-- A batch is stored. -/
structure Loaded (batch : Nat) (d : Desk capacity) : Prop where
  num_eq : d.numRequests = d.requests.length
  nonempty : d.requests ≠ []
  bounded : d.requests.length ≤ batch

/-- The requests that are in the vector and not yet all handled. -/
def batchOf (stage : Stage) (d : Desk capacity) : List Arrival :=
  match stage with
  | .away => if d.numRequests = 0 then [] else d.requests.map (·.toArrival)
  | .filling false => []
  | .filling true | .handing => d.requests.map (·.toArrival)

/-- How many requests of the batch have been passed to `HandleRequest`. -/
def handledCount (d : Desk capacity) : Nat :=
  match d.pc with
  | .start _ i | .stampStart _ i _ | .handle _ i => i
  | .finish _ i | .stampFinish _ i _ | .append _ i => i + 1
  | .release => d.requests.length
  | _ => 0

/-- How many requests of the batch have been appended to `requests[tid]`. -/
def recordedCount (d : Desk capacity) : Nat :=
  match d.pc with
  | .start _ i | .stampStart _ i _ | .handle _ i | .finish _ i | .stampFinish _ i _ | .append _ i => i
  | .release => d.requests.length
  | _ => 0

/-- The requests polled for the worker are those of the batches before and those of the batch; it has handled and recorded the former and a prefix of the latter, in this order. -/
def Log (stage : Stage) (d : Desk capacity) : Prop :=
  ∃ past, d.polled = past ++ d.batchOf stage ∧
    d.handled = past ++ (d.batchOf stage).take d.handledCount ∧
    d.recorded.map (·.toArrival) = past ++ (d.batchOf stage).take d.recordedCount

/-- What the worker relies on at its next access. -/
def At (e : Epistle UInt32 capacity) (key : Int32) (clock : UInt64) (d : Desk capacity) : Prop :=
  match d.pc with
  | .announce => e.Lacks key
  | .register pc => Epistle.Claims e.occ key pc
  | .poll pc | .confirm pc => pc.At e.occ key
  | .measure num => num = d.numRequests
  | .start num i => num = d.numRequests ∧ i < num
  | .stampStart num i time => (num = d.numRequests ∧ i < num) ∧ time ≤ clock ∧
      ∀ r, d.requests[i]? = some r → r.requestAssigned ≤ time
  | .handle num i | .finish num i => (num = d.numRequests ∧ i < num) ∧
      ∀ r, d.requests[i]? = some r → r.requestAssigned ≤ r.requestStart ∧ r.requestStart ≤ clock
  | .stampFinish num i time => (num = d.numRequests ∧ i < num) ∧
      ∀ r, d.requests[i]? = some r → r.requestAssigned ≤ r.requestStart ∧ r.requestStart ≤ time
  | .append num i => (num = d.numRequests ∧ i < num) ∧
      ∀ r, d.requests[i]? = some r → r.requestAssigned ≤ r.requestStart ∧ r.requestStart ≤ r.requestFinished
  | .retire pc => Epistle.Seeks e.occ key pc
  | .lookup | .load | .release => True
  | .failed => False

end Desk

/-- Whose turn it is. -/
inductive Turn (batch : Nat) (key : Int32) (e : Epistle UInt32 capacity) (d : Desk capacity) : Stage → Prop
  | starting (hpc : d.pc.Registering) (hunset : e.Unset key) (hnum : d.numRequests = 0) : Turn batch key e d .away
  | idle {stage : Stage} (hstage : stage ≠ .handing) (hpc : d.pc.Polling) (hholds : e.Holds key epistleThreadIdle)
      (hnum : d.numRequests = 0) : Turn batch key e d stage
  | loaded (hpc : d.pc.Polling) (hholds : e.Holds key epistleThreadIdle) (hloaded : d.Loaded batch) :
      Turn batch key e d .handing
  | running (hpc : d.pc.Polling ∨ d.pc.Busy) (hholds : e.Holds key epistleThreadRunnable) (hloaded : d.Loaded batch) :
      Turn batch key e d .away
  | released (hpc : d.pc.Retiring) (hholds : e.Holds key epistleThreadRunnable) (hnum : d.numRequests = 0)
      (hrequests : d.requests ≠ []) (hbatch : ∃ past, d.polled = past ++ d.requests.map (·.toArrival)) :
      Turn batch key e d .away

structure DeskInv (batch : Nat) (key : Int32) (e : Epistle UInt32 capacity) (clock : UInt64) (stage : Stage)
    (d : Desk capacity) : Prop where
  placed : KeyPlaced Epistle.hash e.occ key
  turn : Turn batch key e d stage
  access : d.At e key clock
  log : d.Log stage
  times : ∀ r ∈ d.requests, r.toArrival.Ordered clock
  recorded : ∀ r ∈ d.recorded, r.Ordered
  fresh : d.work = none → d.polled = []

/-! ### The desk of a worker -/

section Desk

omit [NeZero capacity]

variable {d : Desk capacity}

namespace Desk

@[simp] theorem goto_pc (pc : WorkerPc capacity) (d : Desk capacity) : (d.goto pc).pc = pc := rfl

@[simp] theorem goto_work (pc : WorkerPc capacity) (d : Desk capacity) : (d.goto pc).work = d.work := rfl

@[simp] theorem goto_requests (pc : WorkerPc capacity) (d : Desk capacity) : (d.goto pc).requests = d.requests := rfl

@[simp] theorem goto_numRequests (pc : WorkerPc capacity) (d : Desk capacity) :
    (d.goto pc).numRequests = d.numRequests := rfl

@[simp] theorem setRequests_isSome (requests : List Request) (d : Desk capacity) :
    (d.setRequests requests).work.isSome = d.work.isSome := by
  simp [setRequests]

theorem setRequests_requests (requests : List Request) (hwork : d.work.isSome) :
    (d.setRequests requests).requests = requests := by
  obtain ⟨work, hwork⟩ := Option.isSome_iff_exists.mp hwork
  simp [setRequests, Desk.requests, hwork]

@[simp] theorem setRequests_numRequests (requests : List Request) (d : Desk capacity) :
    (d.setRequests requests).numRequests = d.numRequests := by
  cases hwork : d.work <;> simp [setRequests, numRequests, hwork]

@[simp] theorem setNumRequests_isSome (num : Nat) (d : Desk capacity) :
    (d.setNumRequests num).work.isSome = d.work.isSome := by
  simp [setNumRequests]

@[simp] theorem setNumRequests_requests (num : Nat) (d : Desk capacity) :
    (d.setNumRequests num).requests = d.requests := by
  cases hwork : d.work <;> simp [setNumRequests, Desk.requests, hwork]

theorem setNumRequests_numRequests (num : Nat) (hwork : d.work.isSome) :
    (d.setNumRequests num).numRequests = num := by
  obtain ⟨work, hwork⟩ := Option.isSome_iff_exists.mp hwork
  simp [setNumRequests, numRequests, hwork]

theorem isSome_of_requests (hrequests : d.requests ≠ []) : d.work.isSome := by
  cases hwork : d.work with
  | none => simp [Desk.requests, hwork] at hrequests
  | some work => rfl

theorem Loaded.numRequests_ne_zero {batch : Nat} (hloaded : d.Loaded batch) : d.numRequests ≠ 0 := by
  rw [hloaded.num_eq]
  exact fun hzero => hloaded.nonempty (List.length_eq_zero_iff.mp hzero)

/-- A batch that waits for its worker or is with it. -/
theorem Loaded.batchOf_away {batch : Nat} (hloaded : d.Loaded batch) :
    d.batchOf .away = d.requests.map (·.toArrival) :=
  if_neg hloaded.numRequests_ne_zero

end Desk

end Desk

/-! ### One access of a worker -/

/-- What an access of a worker does to its desk, and to the epistle for the others. -/
structure Moved (batch : Nat) (key : Int32) (e : Epistle UInt32 capacity) (clock : UInt64) (stage : Stage)
    (d : Desk capacity) (next : Epistle UInt32 capacity × Desk capacity) : Prop where
  inv : DeskInv batch key next.1 clock stage next.2
  touches : Epistle.Touches key e next.1
  isSome : next.2.work.isSome = d.work.isSome
  stays : stage ≠ .away → next.1 = e ∧ next.2.work = d.work

namespace DeskInv

variable {batch : Nat} {key : Int32} {e e' : Epistle UInt32 capacity} {clock : UInt64} {stage : Stage}
  {d : Desk capacity} {pc pc' : WorkerPc capacity}

/-- What the worker relies on where it is. -/
theorem access_at (h : DeskInv batch key e clock stage d) (hpc : d.pc = pc) : (d.goto pc).At e key clock := by
  subst hpc
  exact h.access

/-- The worker goes from `pc` to `pc'`, and the epistle may change with it. -/
theorem moved (h : DeskInv batch key e clock stage d) (hpc : d.pc = pc) (htouches : Epistle.Touches key e e')
    (hplaced : KeyPlaced Epistle.hash e'.occ key) (hturn : Turn batch key e' (d.goto pc') stage)
    (hat : (d.goto pc').At e' key clock) (hhandled : (d.goto pc').handledCount = (d.goto pc).handledCount)
    (hrecorded : (d.goto pc').recordedCount = (d.goto pc).recordedCount) (hstays : stage ≠ .away → e' = e) :
    Moved batch key e clock stage d (e', d.goto pc') where
  inv.placed := hplaced
  inv.turn := hturn
  inv.access := hat
  inv.log := by
    subst hpc
    obtain ⟨past, hpolled, hhandle, hrecord⟩ := h.log
    refine ⟨past, hpolled, ?_, ?_⟩
    · rw [hhandled]
      exact hhandle
    · rw [hrecorded]
      exact hrecord
  inv.times := h.times
  inv.recorded := h.recorded
  inv.fresh := h.fresh
  touches := htouches
  isSome := rfl
  stays hstage := ⟨hstays hstage, rfl⟩

theorem moved_same (h : DeskInv batch key e clock stage d) (hpc : d.pc = pc)
    (hturn : Turn batch key e (d.goto pc') stage) (hat : (d.goto pc').At e key clock)
    (hhandled : (d.goto pc').handledCount = (d.goto pc).handledCount)
    (hrecorded : (d.goto pc').recordedCount = (d.goto pc).recordedCount) :
    Moved batch key e clock stage d (e, d.goto pc') :=
  h.moved hpc (.refl key e) h.placed hturn hat hhandled hrecorded fun _ => rfl

/-- A worker that polls goes on polling. -/
theorem turn_poll (h : DeskInv batch key e clock stage d) (hpc : d.pc = pc) (hpolling : pc.Polling)
    {get : Epistle.GetPc capacity} : Turn batch key e (d.goto (.poll get)) stage := by
  subst hpc
  cases h.turn with
  | starting hpc' => exact absurd hpc' hpolling.not_registering
  | idle hstage _ hholds hnum => exact .idle hstage trivial hholds hnum
  | loaded _ hholds hloaded => exact .loaded trivial hholds ⟨hloaded.num_eq, hloaded.nonempty, hloaded.bounded⟩
  | running _ hholds hloaded =>
    exact .running (.inl trivial) hholds ⟨hloaded.num_eq, hloaded.nonempty, hloaded.bounded⟩
  | released hpc' => exact absurd hpolling hpc'.not_polling

/-- The entry that a polling worker sees. -/
theorem holds_of_polling (h : DeskInv batch key e clock stage d) (hpc : d.pc = pc) (hpolling : pc.Polling) :
    e.Holds key epistleThreadIdle ∨
      stage = .away ∧ e.Holds key epistleThreadRunnable ∧ d.Loaded batch := by
  subst hpc
  cases h.turn with
  | starting hpc' => exact absurd hpc' hpolling.not_registering
  | idle _ _ hholds | loaded _ hholds => exact .inl hholds
  | running _ hholds hloaded => exact .inr ⟨rfl, hholds, hloaded⟩
  | released hpc' => exact absurd hpolling hpc'.not_polling

/-- A worker that registers has no hint and no batch. -/
theorem registering (h : DeskInv batch key e clock stage d) (hpc : d.pc = pc) (hregistering : pc.Registering) :
    stage = .away ∧ e.Unset key ∧ d.numRequests = 0 := by
  subst hpc
  cases h.turn with
  | starting _ hunset hnum => exact ⟨rfl, hunset, hnum⟩
  | idle _ hpc' | loaded hpc' => exact absurd hregistering hpc'.not_registering
  | running hpc' => exact absurd hregistering (hpc'.elim (·.not_registering) (·.not_registering))
  | released hpc' => exact absurd hregistering hpc'.not_registering

/-- A busy worker has the batch. -/
theorem busy (h : DeskInv batch key e clock stage d) (hpc : d.pc = pc) (hbusy : pc.Busy) :
    stage = .away ∧ e.Holds key epistleThreadRunnable ∧ d.Loaded batch := by
  subst hpc
  cases h.turn with
  | starting hpc' => exact absurd hpc' hbusy.not_registering
  | idle _ hpc' | loaded hpc' => exact absurd hpc' hbusy.not_polling
  | running _ hholds hloaded => exact ⟨rfl, hholds, hloaded⟩
  | released hpc' => exact absurd hpc' hbusy.not_retiring

/-- A worker that retires has stored zero. -/
theorem retiring (h : DeskInv batch key e clock stage d) (hpc : d.pc = pc) (hretiring : pc.Retiring) :
    stage = .away ∧ e.Holds key epistleThreadRunnable ∧ d.numRequests = 0 ∧ d.requests ≠ [] ∧
      ∃ past, d.polled = past ++ d.requests.map (·.toArrival) := by
  subst hpc
  cases h.turn with
  | starting hpc' => exact absurd hpc' hretiring.not_registering
  | idle _ hpc' | loaded hpc' => exact absurd hpc' hretiring.not_polling
  | running hpc' => exact absurd hpc' (not_or.mpr ⟨hretiring.not_polling, fun hbusy => hbusy.not_retiring hretiring⟩)
  | released _ hholds hnum hrequests hbatch => exact ⟨rfl, hholds, hnum, hrequests, hbatch⟩

/-- A busy worker goes on with its batch. -/
theorem moved_busy (h : DeskInv batch key e clock stage d) (hpc : d.pc = pc) (hbusy : pc.Busy) (hnext : pc'.Busy)
    (hat : (d.goto pc').At e key clock) (hhandled : (d.goto pc').handledCount = (d.goto pc).handledCount)
    (hrecorded : (d.goto pc').recordedCount = (d.goto pc).recordedCount) :
    Moved batch key e clock stage d (e, d.goto pc') := by
  obtain ⟨rfl, hholds, hloaded⟩ := h.busy hpc hbusy
  have hturn : Turn batch key e (d.goto pc') .away :=
    .running (.inr hnext) hholds ⟨hloaded.num_eq, hloaded.nonempty, hloaded.bounded⟩
  exact h.moved_same hpc hturn hat hhandled hrecorded

omit [NeZero capacity] in
theorem loaded_goto (hloaded : d.Loaded batch) : (d.goto pc).Loaded batch :=
  ⟨hloaded.num_eq, hloaded.nonempty, hloaded.bounded⟩

theorem move_announce (h : DeskInv batch key e clock stage d) (hpc : d.pc = .announce) :
    Moved batch key e clock stage d (d.move batch key clock e) := by
  have hmove : d.move batch key clock e =
      (e, { d with lock := true, pc := .register (.test (Epistle.hash key)) }) := by
    rw [Desk.move, hpc]
  have hlacks : e.Lacks key := h.access_at hpc
  obtain ⟨rfl, hunset, hnum⟩ := h.registering hpc trivial
  rw [hmove]
  -- the flag in `worker_lock` is no part of the invariant
  have hnext : Turn batch key e (d.goto (.register (.test (Epistle.hash key)))) .away :=
    .starting trivial hunset hnum
  have hsame := h.moved_same hpc hnext ⟨.start _ key, hlacks⟩ rfl rfl
  exact ⟨⟨hsame.inv.placed, .starting trivial hunset hnum, hsame.inv.access, hsame.inv.log, hsame.inv.times,
    hsame.inv.recorded, hsame.inv.fresh⟩, .refl key e, rfl, fun hne => absurd rfl hne⟩

theorem move_register (h : DeskInv batch key e clock stage d) (hkey : key ≠ 0) (hblank : e.Blank)
    {add : Epistle.AddPc capacity} (hpc : d.pc = .register add) :
    Moved batch key e clock stage d (d.move batch key clock e) := by
  have hclaims : Epistle.Claims e.occ key add := h.access_at hpc
  obtain ⟨rfl, hunset, hnum⟩ := h.registering hpc trivial
  obtain ⟨add', e', hmove, htouches, hplaced, hresult⟩ :=
    Epistle.addMove_claims epistleThreadIdle hkey hblank h.placed hunset hclaims
  rcases hresult with ⟨hclaims', hunset'⟩ | ⟨rfl, hholds⟩
  · have hnext : d.move batch key clock e = (e', d.goto (.register add')) := by
      rw [Desk.move, hpc]
      simp only [hmove]
      cases add' <;> first | rfl | exact absurd hclaims' id
    rw [hnext]
    exact h.moved hpc htouches hplaced (.starting trivial hunset' hnum) hclaims' rfl rfl fun hne => absurd rfl hne
  · have hnext : d.move batch key clock e = (e', d.goto (.poll (.test (Epistle.hash key)))) := by
      rw [Desk.move, hpc]
      simp only [hmove]
    rw [hnext]
    exact h.moved hpc htouches hplaced (.idle (by simp) trivial hholds hnum) (.start _ key) rfl rfl
      fun hne => absurd rfl hne

theorem move_poll (h : DeskInv batch key e clock stage d) {get : Epistle.GetPc capacity} (hpc : d.pc = .poll get) :
    Moved batch key e clock stage d (d.move batch key clock e) := by
  have hat : get.At e.occ key := h.access_at hpc
  have hstay : ∀ get' : Epistle.GetPc capacity, get'.At e.occ key →
      Moved batch key e clock stage d (e, d.goto (.poll get')) := fun get' hat' =>
    h.moved_same hpc (h.turn_poll hpc trivial) hat' rfl rfl
  have hgoes : ∀ get', Epistle.getMove key e get = .inl get' → get'.At e.occ key →
      Moved batch key e clock stage d (d.move batch key clock e) := fun get' hmove hat' => by
    rw [Desk.move, hpc]
    simp only [hmove]
    exact hstay get' hat'
  rcases h.holds_of_polling hpc trivial with hholds | ⟨rfl, hholds, hloaded⟩
  · rcases Epistle.getMove_holds h.placed hholds hat with ⟨get', hmove, hat'⟩ | hmove
    · exact hgoes get' hmove hat'
    · rw [Desk.move, hpc]
      simp only [hmove, if_true]
      exact hstay _ (.start _ key)
  · rcases Epistle.getMove_holds h.placed hholds hat with ⟨get', hmove, hat'⟩ | hmove
    · exact hgoes get' hmove hat'
    · rw [Desk.move, hpc]
      simp only [hmove, if_neg (show epistleThreadRunnable ≠ epistleThreadIdle by decide)]
      exact h.moved_same hpc (.running (.inr trivial) hholds (loaded_goto hloaded)) (.start _ key) rfl rfl

theorem move_confirm (h : DeskInv batch key e clock stage d) {get : Epistle.GetPc capacity}
    (hpc : d.pc = .confirm get) : Moved batch key e clock stage d (d.move batch key clock e) := by
  obtain ⟨-, hholds, -⟩ := h.busy hpc trivial
  rw [Desk.move, hpc]
  rcases Epistle.getMove_holds h.placed hholds (h.access_at hpc) with ⟨get', hmove, hat'⟩ | hmove
  · simp only [hmove]
    exact h.moved_busy hpc trivial trivial hat' rfl rfl
  · simp only [hmove, if_true]
    exact h.moved_busy hpc trivial trivial trivial rfl rfl

theorem move_lookup (h : DeskInv batch key e clock stage d) (hpc : d.pc = .lookup) :
    Moved batch key e clock stage d (d.move batch key clock e) := by
  obtain ⟨-, -, hloaded⟩ := h.busy hpc trivial
  rw [Desk.move, hpc]
  simp only [Desk.isSome_of_requests hloaded.nonempty, if_true]
  exact h.moved_busy hpc trivial trivial trivial rfl rfl

theorem move_load (h : DeskInv batch key e clock stage d) (hpc : d.pc = .load) :
    Moved batch key e clock stage d (d.move batch key clock e) := by
  obtain ⟨-, -, hloaded⟩ := h.busy hpc trivial
  have hbound : d.numRequests ≤ batch := hloaded.num_eq ▸ hloaded.bounded
  rw [Desk.move, hpc]
  simp only [if_neg hloaded.numRequests_ne_zero, if_pos hbound]
  exact h.moved_busy hpc trivial trivial rfl rfl rfl

theorem move_measure (h : DeskInv batch key e clock stage d) {num : Nat} (hpc : d.pc = .measure num) :
    Moved batch key e clock stage d (d.move batch key clock e) := by
  obtain ⟨-, -, hloaded⟩ := h.busy hpc trivial
  have hnum : num = d.numRequests := h.access_at hpc
  have hpos : 0 < num := Nat.pos_of_ne_zero (hnum ▸ hloaded.numRequests_ne_zero)
  rw [Desk.move, hpc]
  simp only [hnum ▸ hloaded.num_eq, if_true]
  rw [← hloaded.num_eq, ← hnum, WorkerPc.next, if_pos hpos]
  exact h.moved_busy hpc trivial trivial ⟨hnum, hpos⟩ rfl rfl

/-! ### The loop over a batch -/

theorem move_start (h : DeskInv batch key e clock stage d) {num i : Nat} (hpc : d.pc = .start num i) :
    Moved batch key e clock stage d (d.move batch key clock e) := by
  rw [Desk.move, hpc]
  refine h.moved_busy hpc trivial trivial ⟨h.access_at hpc, UInt64.le_refl _, fun r hr => ?_⟩ rfl rfl
  exact (h.times r (List.mem_of_getElem? hr)).assigned_le

theorem move_finish (h : DeskInv batch key e clock stage d) {num i : Nat} (hpc : d.pc = .finish num i) :
    Moved batch key e clock stage d (d.move batch key clock e) := by
  obtain ⟨hi, htimes⟩ := h.access_at hpc
  rw [Desk.move, hpc]
  exact h.moved_busy hpc trivial trivial ⟨hi, htimes⟩ rfl rfl

/-- The request that the loop is at. -/
theorem request_at (h : DeskInv batch key e clock stage d) (hpc : d.pc = pc) (hbusy : pc.Busy) {num i : Nat}
    (hi : num = d.numRequests ∧ i < num) : ∃ r, d.requests[i]? = some r := by
  obtain ⟨-, -, hloaded⟩ := h.busy hpc hbusy
  have hlt : i < d.requests.length := by
    rw [← hloaded.num_eq, ← hi.1]
    exact hi.2
  exact ⟨_, List.getElem?_eq_getElem hlt⟩

omit [NeZero capacity] in
/-- The times that a worker writes are no part of an arrival. -/
theorem map_toArrival_set {requests : List Request} {i : Nat} {r r' : Request} (hr : requests[i]? = some r)
    (hsame : r'.toArrival = r.toArrival) : (requests.set i r').map (·.toArrival) = requests.map (·.toArrival) := by
  rw [List.map_set, hsame]
  apply List.ext_getElem?
  intro j
  rw [List.getElem?_set]
  split
  · rename_i hij
    subst hij
    have hlt : i < (requests.map (·.toArrival)).length := by
      rw [List.length_map]
      exact (List.getElem?_eq_some_iff.mp hr).choose
    rw [if_pos hlt, List.getElem?_map, hr]
    rfl
  · rfl

omit [NeZero capacity] in
theorem loaded_stamp (hloaded : d.Loaded batch) (i : Nat) (r' : Request) :
    ((d.setRequests (d.requests.set i r')).goto pc).Loaded batch := by
  have hrequests := Desk.setRequests_requests (d.requests.set i r') (Desk.isSome_of_requests hloaded.nonempty)
  refine ⟨?_, ?_, ?_⟩
  · rw [Desk.goto_numRequests, Desk.goto_requests, hrequests, List.length_set]
    simpa using hloaded.num_eq
  · rw [Desk.goto_requests, hrequests, ne_eq, List.set_eq_nil_iff]
    exact hloaded.nonempty
  · rw [Desk.goto_requests, hrequests, List.length_set]
    exact hloaded.bounded

omit [NeZero capacity] in
theorem batchOf_stamp (hloaded : d.Loaded batch) {i : Nat} {r r' : Request} (hr : d.requests[i]? = some r)
    (hsame : r'.toArrival = r.toArrival) :
    ((d.setRequests (d.requests.set i r')).goto pc).batchOf .away = d.batchOf .away := by
  have hrequests := Desk.setRequests_requests (d.requests.set i r') (Desk.isSome_of_requests hloaded.nonempty)
  rw [(loaded_stamp hloaded i r').batchOf_away, Desk.goto_requests, hrequests, map_toArrival_set hr hsame,
    hloaded.batchOf_away]

/-- The worker writes a time into a request of its batch. -/
theorem moved_stamp (h : DeskInv batch key e clock stage d) (hpc : d.pc = pc) (hbusy : pc.Busy) (hnext : pc'.Busy)
    {i : Nat} {r r' : Request} (hr : d.requests[i]? = some r) (hsame : r'.toArrival = r.toArrival)
    (hat : ((d.setRequests (d.requests.set i r')).goto pc').At e key clock)
    (hhandled : ((d.setRequests (d.requests.set i r')).goto pc').handledCount = (d.goto pc).handledCount)
    (hrecorded : ((d.setRequests (d.requests.set i r')).goto pc').recordedCount = (d.goto pc).recordedCount) :
    Moved batch key e clock stage d (e, (d.setRequests (d.requests.set i r')).goto pc') := by
  obtain ⟨rfl, hholds, hloaded⟩ := h.busy hpc hbusy
  have hwork := Desk.isSome_of_requests hloaded.nonempty
  have hrequests := Desk.setRequests_requests (d.requests.set i r') hwork
  have hbatch : ((d.setRequests (d.requests.set i r')).goto pc').batchOf .away = d.batchOf .away :=
    batchOf_stamp hloaded hr hsame
  constructor
  case inv =>
    constructor
    case placed => exact h.placed
    case turn => exact .running (.inr hnext) hholds (loaded_stamp hloaded i r')
    case access => exact hat
    case log =>
      subst hpc
      obtain ⟨past, hpolled, hhandle, hrecord⟩ := h.log
      refine ⟨past, ?_, ?_, ?_⟩
      · rw [hbatch]
        exact hpolled
      · rw [hhandled, hbatch]
        exact hhandle
      · rw [hrecorded, hbatch]
        exact hrecord
    case times =>
      intro q hq
      rw [Desk.goto_requests, hrequests] at hq
      rcases List.mem_or_eq_of_mem_set hq with hold | rfl
      · exact h.times q hold
      · rw [hsame]
        exact h.times r (List.mem_of_getElem? hr)
    case recorded => exact h.recorded
    case fresh =>
      intro hnone
      rw [Desk.goto_work] at hnone
      have hsome := Desk.setRequests_isSome (d.requests.set i r') d
      rw [hnone, hwork] at hsome
      cases hsome
  case touches => exact .refl key e
  case isSome => simp
  case stays => exact fun hne => absurd rfl hne

omit [NeZero capacity] in
theorem eq_of_stamped (hloaded : d.Loaded batch) {i : Nat} {r r' q : Request} (hr : d.requests[i]? = some r)
    (hq : ((d.setRequests (d.requests.set i r')).goto pc).requests[i]? = some q) : q = r' := by
  have hlt := (List.getElem?_eq_some_iff.mp hr).choose
  rw [Desk.goto_requests, Desk.setRequests_requests _ (Desk.isSome_of_requests hloaded.nonempty),
    List.getElem?_set_self hlt] at hq
  exact (Option.some.inj hq).symm

theorem move_stampStart (h : DeskInv batch key e clock stage d) {num i : Nat} {time : UInt64}
    (hpc : d.pc = .stampStart num i time) : Moved batch key e clock stage d (d.move batch key clock e) := by
  obtain ⟨hi, htime, hassigned⟩ := h.access_at hpc
  obtain ⟨r, hr⟩ := h.request_at hpc trivial hi
  obtain ⟨-, -, hloaded⟩ := h.busy hpc trivial
  rw [Desk.move, hpc]
  simp only [Desk.withRequest, hr]
  have hnext : (WorkerPc.handle num i : WorkerPc capacity).Busy := trivial
  refine h.moved_stamp hpc trivial hnext hr rfl ⟨by simpa using hi, fun q hq => ?_⟩ rfl rfl
  obtain rfl := eq_of_stamped hloaded hr hq
  exact ⟨hassigned r hr, htime⟩

theorem move_stampFinish (h : DeskInv batch key e clock stage d) {num i : Nat} {time : UInt64}
    (hpc : d.pc = .stampFinish num i time) : Moved batch key e clock stage d (d.move batch key clock e) := by
  obtain ⟨hi, htimes⟩ := h.access_at hpc
  obtain ⟨r, hr⟩ := h.request_at hpc trivial hi
  obtain ⟨-, -, hloaded⟩ := h.busy hpc trivial
  rw [Desk.move, hpc]
  simp only [Desk.withRequest, hr]
  have hnext : (WorkerPc.append num i : WorkerPc capacity).Busy := trivial
  refine h.moved_stamp hpc trivial hnext hr rfl ⟨by simpa using hi, fun q hq => ?_⟩ rfl rfl
  obtain rfl := eq_of_stamped hloaded hr hq
  exact htimes r hr

omit [NeZero capacity] in
/-- The prefix of a batch up to and with the request `i`. -/
theorem take_batch (hloaded : d.Loaded batch) {i : Nat} {r : Request} (hr : d.requests[i]? = some r) :
    (d.batchOf .away).take (i + 1) = (d.batchOf .away).take i ++ [r.toArrival] := by
  rw [hloaded.batchOf_away, List.take_add_one, List.getElem?_map, hr]
  rfl

theorem move_handle (h : DeskInv batch key e clock stage d) {num i : Nat} (hpc : d.pc = .handle num i) :
    Moved batch key e clock stage d (d.move batch key clock e) := by
  obtain ⟨rfl, hholds, hloaded⟩ := h.busy hpc trivial
  obtain ⟨hi, htimes⟩ := h.access_at hpc
  obtain ⟨r, hr⟩ := h.request_at hpc trivial hi
  rw [Desk.move, hpc]
  simp only [Desk.withRequest, hr]
  refine ⟨⟨h.placed, .running (.inr trivial) hholds ⟨hloaded.num_eq, hloaded.nonempty, hloaded.bounded⟩,
    ⟨hi, htimes⟩, ?_, h.times, h.recorded, h.fresh⟩, .refl key e, rfl, fun hne => absurd rfl hne⟩
  obtain ⟨past, hpolled, hhandle, hrecord⟩ := h.log
  simp only [Desk.handledCount, hpc] at hhandle
  simp only [Desk.recordedCount, hpc] at hrecord
  refine ⟨past, hpolled, ?_, hrecord⟩
  show d.handled ++ [r.toArrival] = past ++ (d.batchOf .away).take (i + 1)
  rw [take_batch hloaded hr, hhandle, List.append_assoc]

theorem move_append (h : DeskInv batch key e clock stage d) {num i : Nat} (hpc : d.pc = .append num i) :
    Moved batch key e clock stage d (d.move batch key clock e) := by
  obtain ⟨rfl, hholds, hloaded⟩ := h.busy hpc trivial
  obtain ⟨⟨hnum, hi⟩, htimes⟩ := h.access_at hpc
  rw [Desk.goto_numRequests] at hnum
  obtain ⟨r, hr⟩ := h.request_at hpc trivial ⟨hnum, hi⟩
  have hordered := h.times r (List.mem_of_getElem? hr)
  obtain ⟨past, hpolled, hhandle, hrecord⟩ := h.log
  simp only [Desk.handledCount, hpc] at hhandle
  simp only [Desk.recordedCount, hpc] at hrecord
  rw [Desk.move, hpc]
  simp only [Desk.withRequest, hr]
  have hrecorded : (d.recorded ++ [r]).map (·.toArrival) = past ++ (d.batchOf .away).take (i + 1) := by
    rw [take_batch hloaded hr, List.map_append, hrecord, List.append_assoc]
    rfl
  have hstamped : ∀ q ∈ d.recorded ++ [r], q.Ordered := by
    intro q hq
    rcases List.mem_append.mp hq with hold | hlast
    · exact h.recorded q hold
    · obtain rfl := List.mem_singleton.mp hlast
      obtain ⟨hassigned, hstart⟩ := htimes q hr
      exact ⟨hordered.generated_le, hordered.received_le, hassigned, hstart⟩
  -- the loop goes on with the next request, or is over
  by_cases hmore : i + 1 < num
  · rw [WorkerPc.next, if_pos hmore]
    exact ⟨⟨h.placed, .running (.inr trivial) hholds ⟨hloaded.num_eq, hloaded.nonempty, hloaded.bounded⟩,
      ⟨hnum, hmore⟩, ⟨past, hpolled, hhandle, hrecorded⟩, h.times, hstamped, h.fresh⟩, .refl key e, rfl,
      fun hne => absurd rfl hne⟩
  · have hlength : i + 1 = d.requests.length := by
      rw [← hloaded.num_eq, ← hnum]
      omega
    rw [hlength] at hhandle hrecorded
    rw [WorkerPc.next, if_neg hmore]
    exact ⟨⟨h.placed, .running (.inr trivial) hholds ⟨hloaded.num_eq, hloaded.nonempty, hloaded.bounded⟩,
      trivial, ⟨past, hpolled, hhandle, hrecorded⟩, h.times, hstamped, h.fresh⟩, .refl key e, rfl,
      fun hne => absurd rfl hne⟩

theorem move_release (h : DeskInv batch key e clock stage d) (hpc : d.pc = .release) :
    Moved batch key e clock stage d (d.move batch key clock e) := by
  obtain ⟨rfl, hholds, hloaded⟩ := h.busy hpc trivial
  have hwork := Desk.isSome_of_requests hloaded.nonempty
  have hnum := Desk.setNumRequests_numRequests 0 hwork
  rw [Desk.move, hpc]
  constructor
  case inv =>
    constructor
    case placed => exact h.placed
    case turn =>
      have hrequests := Desk.setNumRequests_requests 0 d
      refine .released trivial hholds hnum ?_ ?_
      · rw [Desk.goto_requests, hrequests]
        exact hloaded.nonempty
      · obtain ⟨past, hpolled, -⟩ := h.log
        refine ⟨past, ?_⟩
        rw [Desk.goto_requests, hrequests, ← hloaded.batchOf_away]
        exact hpolled
    case access => exact .start _ key
    case log =>
      obtain ⟨past, hpolled, hhandle, hrecord⟩ := h.log
      have hall : (d.batchOf .away).take d.requests.length = d.batchOf .away := by
        rw [hloaded.batchOf_away, List.take_of_length_le (by simp)]
      simp only [Desk.handledCount, hpc, hall] at hhandle
      simp only [Desk.recordedCount, hpc, hall] at hrecord
      have hnil : ((d.setNumRequests 0).goto (.retire (.test (Epistle.hash key)))).batchOf .away = [] := if_pos hnum
      refine ⟨d.polled, ?_, ?_, ?_⟩
      · rw [hnil, List.append_nil]
        rfl
      · rw [hnil, List.take_nil, List.append_nil, hpolled]
        exact hhandle
      · rw [hnil, List.take_nil, List.append_nil, hpolled]
        exact hrecord
    case times =>
      rw [Desk.goto_requests, Desk.setNumRequests_requests]
      exact h.times
    case recorded => exact h.recorded
    case fresh =>
      intro hnone
      have hsome := Desk.setNumRequests_isSome 0 d
      rw [← Desk.goto_work (.retire (.test (Epistle.hash key))), hnone, hwork] at hsome
      cases hsome
  case touches => exact .refl key e
  case isSome => simp
  case stays => exact fun hne => absurd rfl hne

theorem move_retire (h : DeskInv batch key e clock stage d) {add : Epistle.AddPc capacity}
    (hpc : d.pc = .retire add) : Moved batch key e clock stage d (d.move batch key clock e) := by
  have hat : Epistle.Seeks e.occ key add := h.access_at hpc
  obtain ⟨rfl, hholds, hnum, hrequests, hbatch⟩ := h.retiring hpc trivial
  rcases Epistle.addMove_seeks epistleThreadIdle h.placed hholds hat with
    ⟨add', hmove, hseeks, hgoes⟩ | ⟨e', hmove, htouches, hplaced, hholds'⟩
  · have hnext : d.move batch key clock e = (e, d.goto (.retire add')) := by
      rw [Desk.move, hpc]
      cases add' <;> first | exact absurd rfl hgoes | simp only [hmove]
    rw [hnext]
    exact h.moved_same hpc (.released trivial hholds hnum hrequests hbatch) hseeks rfl rfl
  · have hnext : d.move batch key clock e = (e', d.goto (.poll (.test (Epistle.hash key)))) := by
      rw [Desk.move, hpc]
      simp only [hmove]
    rw [hnext]
    exact h.moved hpc htouches hplaced (.idle (by simp) trivial hholds' hnum) (.start _ key) rfl rfl
      fun hne => absurd rfl hne

/-- Every access of a worker keeps the invariant of its desk. -/
theorem move (h : DeskInv batch key e clock stage d) (hkey : key ≠ 0) (hblank : e.Blank) :
    Moved batch key e clock stage d (d.move batch key clock e) := by
  cases hpc : d.pc with
  | announce => exact h.move_announce hpc
  | register add => exact h.move_register hkey hblank hpc
  | poll get => exact h.move_poll hpc
  | confirm get => exact h.move_confirm hpc
  | lookup => exact h.move_lookup hpc
  | load => exact h.move_load hpc
  | measure num => exact h.move_measure hpc
  | start num i => exact h.move_start hpc
  | stampStart num i time => exact h.move_stampStart hpc
  | handle num i => exact h.move_handle hpc
  | finish num i => exact h.move_finish hpc
  | stampFinish num i time => exact h.move_stampFinish hpc
  | append num i => exact h.move_append hpc
  | release => exact h.move_release hpc
  | retire add => exact h.move_retire hpc
  | failed => exact (h.access_at hpc).elim

end DeskInv

end Workload

end CosUserspace
