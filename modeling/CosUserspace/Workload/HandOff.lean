import CosUserspace.Epistle.Calls

/-!
# The hand-off of requests in the rocksdb workload

`workload/rocksdb.cpp`: a generator polls requests in batches and hands each batch to a worker that is idle by the epistle, by storing the size of the batch in `num_requests` and marking the worker RUNNABLE; the worker handles the batch, stores zero and marks itself IDLE. `main` releases the generator once every worker has announced itself. The state holds the words the threads share and the next access of each thread; a step is one access of one thread, and nothing else orders them. The flags that end the experiment are not set.
-/

namespace CosUserspace

namespace Workload

/-- `EPISTLE_THREAD_RUNNABLE` -/
def epistleThreadRunnable : UInt32 := 0

/-- `EPISTLE_THREAD_IDLE` -/
def epistleThreadIdle : UInt32 := 1

/-- `Request::work` -/
inductive Work
  | get (entry : UInt32)
  | range (startEntry size : UInt32)
  deriving DecidableEq, Repr

/-- What the generator fills in of a `Request`. -/
structure Arrival where
  requestGenerated : UInt64
  requestReceived : UInt64
  requestAssigned : UInt64
  work : Work
  deriving DecidableEq, Repr

structure Request extends Arrival where
  requestStart : UInt64
  requestFinished : UInt64
  deriving DecidableEq, Repr

structure WorkerWork where
  numRequests : Nat
  requests : List Request

/-- The fields of `option` that the report reads. -/
structure Options where
  /-- in seconds -/
  discardDuration : Int32 := 1
  ns : Bool := true
  printLast : Bool := false

/-- The workers, the size of a batch, and how the results are printed. -/
structure Setup where
  numWorkers : Nat
  tid : Fin numWorkers → Int32
  batch : Nat
  options : Options := {}
  /-- the slots of `worker_lock` -/
  numWorkers_le : numWorkers ≤ 100
  tid_injective : Function.Injective tid
  tid_ne_zero : ∀ w, tid w ≠ 0

/-! ### The threads -/

/-- The next access of `Worker`. -/
inductive WorkerPc (capacity : Nat)
  /-- `worker_lock[lock_id] = true` -/
  | announce
  /-- `epistle->add(tid, EPISTLE_THREAD_IDLE)` before the loop -/
  | register (pc : Epistle.AddPc capacity)
  /-- `if (epistle->get(tid) == EPISTLE_THREAD_IDLE)` -/
  | poll (pc : Epistle.GetPc capacity)
  /-- `assert(epistle->get(tid) == EPISTLE_THREAD_RUNNABLE)` -/
  | confirm (pc : Epistle.GetPc capacity)
  /-- `worker_works[tid].get()` -/
  | lookup
  /-- `work->num_requests.load(...)` and the two tests of its value -/
  | load
  /-- `assert(num_requests == work->requests.size())` -/
  | measure (num : Nat)
  /-- the clock is read for `request_start` -/
  | start (num i : Nat)
  /-- `request.request_start = ...` -/
  | stampStart (num i : Nat) (time : UInt64)
  /-- `HandleRequest(&request)` -/
  | handle (num i : Nat)
  /-- the clock is read for `request_finished` -/
  | finish (num i : Nat)
  /-- `request.request_finished = ...` -/
  | stampFinish (num i : Nat) (time : UInt64)
  /-- `requests[tid].push_back(request)` -/
  | append (num i : Nat)
  /-- `work->num_requests.store(0, ...)` -/
  | release
  /-- `epistle->add(tid, EPISTLE_THREAD_IDLE)` after the batch -/
  | retire (pc : Epistle.AddPc capacity)
  /-- an assert failed, or an access had no object -/
  | failed
  deriving DecidableEq

/-- The next access of `LoadGenerator`; `w` is the worker it is at. -/
inductive GeneratorPc (numWorkers capacity : Nat)
  /-- `while (!generator_lock)` -/
  | wait
  /-- `network.Start()` -/
  | launch
  /-- the head of the loop over the workers -/
  | enter (i : Nat)
  /-- `if (epistle->get(tid) == EPISTLE_THREAD_RUNNABLE)` -/
  | look (w : Fin numWorkers) (pc : Epistle.GetPc capacity)
  /-- `assert(worker_works[tid]->num_requests.load(...) == 0)` -/
  | expectZero (w : Fin numWorkers)
  /-- `worker_works[tid]->requests.clear()` -/
  | clear (w : Fin numWorkers)
  /-- `ingress_.HasNewArrival()` -/
  | arrive (w : Fin numWorkers) (k : Nat)
  /-- the clock is read for `request_received` -/
  | receive (w : Fin numWorkers) (k : Nat) (arrival : UInt64)
  /-- the clock is read for `request_assigned` -/
  | assign (w : Fin numWorkers) (k : Nat) (request : Request)
  /-- `worker_works[tid]->requests.push_back(request)` -/
  | push (w : Fin numWorkers) (k : Nat) (request : Request)
  /-- `if (!worker_works[tid]->requests.empty())` -/
  | testEmpty (w : Fin numWorkers)
  /-- `assert(worker_works[tid]->requests.size() <= (uint32_t)options.batch)` -/
  | bound (w : Fin numWorkers)
  /-- `worker_works[tid]->requests.size()` -/
  | measure (w : Fin numWorkers)
  /-- `worker_works[tid]->num_requests.store(...)` -/
  | store (w : Fin numWorkers) (num : Nat)
  /-- `assert(epistle->get(tid) == EPISTLE_THREAD_IDLE)` -/
  | confirm (w : Fin numWorkers) (pc : Epistle.GetPc capacity)
  /-- `epistle->add(tid, EPISTLE_THREAD_RUNNABLE)` -/
  | hand (w : Fin numWorkers) (pc : Epistle.AddPc capacity)
  /-- `assert(start_ > 0)` failed: the arrival times have wrapped around to zero -/
  | stopped (w : Fin numWorkers)
  /-- another assert failed, or an access had no object -/
  | failed
  deriving DecidableEq

/-- `main` while it sets the workers up. -/
inductive MainPc
  /-- `while(!worker_lock[wl_i])` -/
  | wait (i : Nat)
  /-- `worker_works` and `requests` get their entries for the worker -/
  | insert (i : Nat)
  /-- `generator_lock = true` -/
  | release
  | done
  deriving DecidableEq

/-- What belongs to one worker: its flag in `worker_lock`, its entries of `worker_works` and `requests`, and its next access. `polled` and `handled` are kept for the proofs: the requests put into its vector, and those passed to `HandleRequest`. -/
structure Desk (capacity : Nat) where
  lock : Bool
  work : Option WorkerWork
  recorded : List Request
  pc : WorkerPc capacity
  polled : List Arrival
  handled : List Arrival

/-- What a thread reads from outside: the clock, the time to the next arrival, and the rest of a request, which is random or not initialised. -/
structure Input where
  now : UInt64
  gap : UInt64
  request : Request

structure HandOff (S : Setup) (capacity : Nat) where
  epistle : Epistle UInt32 capacity
  desk : Fin S.numWorkers → Desk capacity
  main : MainPc
  generator : GeneratorPc S.numWorkers capacity
  generatorLock : Bool
  /-- `start_` of the ingress queue -/
  start : UInt64
  clock : UInt64

inductive Thread (numWorkers : Nat)
  | main
  | generator
  | worker (w : Fin numWorkers)

variable {capacity : Nat} [NeZero capacity]

/-! ### Worker -/

namespace Desk

def requests (d : Desk capacity) : List Request :=
  match d.work with
  | some work => work.requests
  | none => []

def numRequests (d : Desk capacity) : Nat :=
  match d.work with
  | some work => work.numRequests
  | none => 0

def setRequests (requests : List Request) (d : Desk capacity) : Desk capacity :=
  { d with work := d.work.map fun work => { work with requests } }

def setNumRequests (numRequests : Nat) (d : Desk capacity) : Desk capacity :=
  { d with work := d.work.map fun work => { work with numRequests } }

def goto (pc : WorkerPc capacity) (d : Desk capacity) : Desk capacity := { d with pc }

/-- An access to `work->requests[i]`. -/
def withRequest (i : Nat) (f : Request → Desk capacity) (d : Desk capacity) : Desk capacity :=
  match d.requests[i]? with
  | some request => f request
  | none => d.goto .failed

end Desk

/-- The head of `for (size_t i = 0; i < num_requests; ++i)`. -/
def WorkerPc.next (num i : Nat) : WorkerPc capacity := if i < num then .start num i else .release

/-- One access of the worker with the thread id `key`. -/
def Desk.move (batch : Nat) (key : Int32) (now : UInt64) (e : Epistle UInt32 capacity) (d : Desk capacity) :
    Epistle UInt32 capacity × Desk capacity :=
  match d.pc with
  | .announce => (e, { d with lock := true, pc := .register (.test (Epistle.hash key)) })
  | .register pc =>
    match e.addMove key epistleThreadIdle pc with
    | (.returned, e) => (e, d.goto (.poll (.test (Epistle.hash key))))
    | (pc, e) => (e, d.goto (.register pc))
  | .poll pc =>
    match e.getMove key pc with
    | .inl pc => (e, d.goto (.poll pc))
    | .inr hint =>
      if hint = epistleThreadIdle then (e, d.goto (.poll (.test (Epistle.hash key))))
      else (e, d.goto (.confirm (.test (Epistle.hash key))))
  | .confirm pc =>
    match e.getMove key pc with
    | .inl pc => (e, d.goto (.confirm pc))
    | .inr hint => if hint = epistleThreadRunnable then (e, d.goto .lookup) else (e, d.goto .failed)
  | .lookup => if d.work.isSome then (e, d.goto .load) else (e, d.goto .failed)
  | .load =>
    if d.numRequests = 0 then (e, d.goto (.poll (.test (Epistle.hash key))))
    else if d.numRequests ≤ batch then (e, d.goto (.measure d.numRequests))
    else (e, d.goto .failed)
  | .measure num => if num = d.requests.length then (e, d.goto (.next num 0)) else (e, d.goto .failed)
  | .start num i => (e, d.goto (.stampStart num i now))
  | .stampStart num i time =>
    (e, d.withRequest i fun request =>
      (d.setRequests (d.requests.set i { request with requestStart := time })).goto (.handle num i))
  | .handle num i =>
    (e, d.withRequest i fun request =>
      { d with handled := d.handled ++ [request.toArrival], pc := .finish num i })
  | .finish num i => (e, d.goto (.stampFinish num i now))
  | .stampFinish num i time =>
    (e, d.withRequest i fun request =>
      (d.setRequests (d.requests.set i { request with requestFinished := time })).goto (.append num i))
  | .append num i =>
    (e, d.withRequest i fun request =>
      { d with recorded := d.recorded ++ [request], pc := .next num (i + 1) })
  | .release => (e, (d.setNumRequests 0).goto (.retire (.test (Epistle.hash key))))
  | .retire pc =>
    match e.addMove key epistleThreadIdle pc with
    | (.returned, e) => (e, d.goto (.poll (.test (Epistle.hash key))))
    | (pc, e) => (e, d.goto (.retire pc))
  | .failed => (e, d)

namespace HandOff

variable {S : Setup}

def setDesk (w : Fin S.numWorkers) (d : Desk capacity) (s : HandOff S capacity) : HandOff S capacity :=
  { s with desk := Function.update s.desk w d }

def moveWorker (w : Fin S.numWorkers) (now : UInt64) (s : HandOff S capacity) : HandOff S capacity :=
  let (epistle, d) := (s.desk w).move S.batch (S.tid w) now s.epistle
  { s.setDesk w d with epistle }

/-! ### LoadGenerator -/

def goto (pc : GeneratorPc S.numWorkers capacity) (s : HandOff S capacity) : HandOff S capacity :=
  { s with generator := pc }

/-- The head of `for (int i = 0; i < options.batch; ++i)`. -/
def nextPoll (S : Setup) (w : Fin S.numWorkers) (k : Nat) : GeneratorPc S.numWorkers capacity :=
  if k < S.batch then .arrive w k else .testEmpty w

/-- An access through `worker_works[tid]`. -/
def withWork (w : Fin S.numWorkers) (f : WorkerWork → HandOff S capacity) (s : HandOff S capacity) :
    HandOff S capacity :=
  match (s.desk w).work with
  | some work => f work
  | none => s.goto .failed

def moveGenerator (input : Input) (s : HandOff S capacity) : HandOff S capacity :=
  match s.generator with
  | .wait => if s.generatorLock then s.goto .launch else s
  | .launch => { s with start := input.now, generator := .enter 0 }
  | .enter i =>
    if h : i < S.numWorkers then s.goto (.look ⟨i, h⟩ (.test (Epistle.hash (S.tid ⟨i, h⟩)))) else s.goto (.enter 0)
  | .look w pc =>
    match s.epistle.getMove (S.tid w) pc with
    | .inl pc => s.goto (.look w pc)
    | .inr hint => if hint = epistleThreadRunnable then s.goto (.enter (w + 1)) else s.goto (.expectZero w)
  | .expectZero w =>
    s.withWork w fun work => if work.numRequests = 0 then s.goto (.clear w) else s.goto .failed
  | .clear w => s.withWork w fun _ => (s.setDesk w ((s.desk w).setRequests [])).goto (nextPoll S w 0)
  | .arrive w k =>
    if s.start = 0 then s.goto (.stopped w)
    else if s.start ≤ input.now then { s with start := s.start + input.gap, generator := .receive w k s.start }
    else s.goto (.testEmpty w)
  | .receive w k arrival =>
    s.goto (.assign w k { input.request with requestGenerated := arrival, requestReceived := input.now })
  | .assign w k request => s.goto (.push w k { request with requestAssigned := input.now })
  | .push w k request =>
    s.withWork w fun work =>
      let d := (s.desk w).setRequests (work.requests ++ [request])
      (s.setDesk w { d with polled := d.polled ++ [request.toArrival] }).goto (nextPoll S w (k + 1))
  | .testEmpty w =>
    s.withWork w fun work => if work.requests = [] then s.goto (.enter 0) else s.goto (.bound w)
  | .bound w =>
    s.withWork w fun work => if work.requests.length ≤ S.batch then s.goto (.measure w) else s.goto .failed
  | .measure w => s.withWork w fun work => s.goto (.store w work.requests.length)
  | .store w num =>
    s.withWork w fun _ => (s.setDesk w ((s.desk w).setNumRequests num)).goto
      (.confirm w (.test (Epistle.hash (S.tid w))))
  | .confirm w pc =>
    match s.epistle.getMove (S.tid w) pc with
    | .inl pc => s.goto (.confirm w pc)
    | .inr hint =>
      if hint = epistleThreadIdle then s.goto (.hand w (.test (Epistle.hash (S.tid w)))) else s.goto .failed
  | .hand w pc =>
    match s.epistle.addMove (S.tid w) epistleThreadRunnable pc with
    | (.returned, epistle) => { s with epistle, generator := .enter (w + 1) }
    | (pc, epistle) => { s with epistle, generator := .hand w pc }
  | .stopped _ => s
  | .failed => s

/-! ### main -/

def moveMain (s : HandOff S capacity) : HandOff S capacity :=
  match s.main with
  | .wait i =>
    if h : i < S.numWorkers then
      if (s.desk ⟨i, h⟩).lock then { s with main := .insert i } else s
    else { s with main := .release }
  | .insert i =>
    if h : i < S.numWorkers then
      { s.setDesk ⟨i, h⟩ { s.desk ⟨i, h⟩ with work := some ⟨0, []⟩, recorded := [] } with main := .wait (i + 1) }
    else s
  | .release => { s with generatorLock := true, main := .done }
  | .done => s

/-! ### Steps -/

def init (S : Setup) (epistle : Epistle UInt32 capacity) : HandOff S capacity where
  epistle := epistle
  desk := fun _ => ⟨false, none, [], .announce, [], []⟩
  main := .wait 0
  generator := .wait
  generatorLock := false
  start := 0
  clock := 0

/-- One access of a thread, at the time `input.now`. -/
def move (thread : Thread S.numWorkers) (input : Input) (s : HandOff S capacity) : HandOff S capacity :=
  let s := { s with clock := input.now }
  match thread with
  | .main => s.moveMain
  | .generator => s.moveGenerator input
  | .worker w => s.moveWorker w input.now

/-- Any thread moves, and the clock does not go back. -/
def Step (s : HandOff S capacity) (action : Thread S.numWorkers × Input) (s' : HandOff S capacity) : Prop :=
  s.clock ≤ action.2.now ∧ s' = s.move action.1 action.2

end HandOff

end Workload

end CosUserspace
