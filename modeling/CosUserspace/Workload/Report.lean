import CosUserspace.Workload.Found
import CosUserspace.Workload.Shutdown
import CosUserspace.Workload.Throughput

/-!
# What the report says of an experiment

`main` prints the report once it has joined everybody. The rows of the report are computed one by one, each from the two times of its stage, and a row leaves out the requests whose second time is zero. For the requests of an experiment the rows fit together: every time is set and not before the one that it is subtracted from, so each row counts the same requests and no latency wraps around.
-/

namespace CosUserspace

namespace Workload

/-! ### The requests of the workers -/

variable {capacity : Nat} [NeZero capacity] {S : Setup}

/-- The arrival times that are under way, or have gone into a vector, are not zero. -/
structure Stamped (s : HandOff S capacity) : Prop where
  polled : ∀ w, ∀ arrival ∈ (s.desk w).polled, arrival.requestGenerated ≠ 0
  received : ∀ w k arrival, s.generator = .receive w k arrival → arrival ≠ 0
  pending : ∀ request, s.generator.pending = some request → request.requestGenerated ≠ 0

namespace Stamped

open HandOff

variable {s t : HandOff S capacity}

omit [NeZero capacity] in
theorem of_same (h : Stamped s) (hpolled : ∀ w, (t.desk w).polled = (s.desk w).polled)
    (hgenerator : t.generator = s.generator) : Stamped t where
  polled w arrival hmem := h.polled w arrival (hpolled w ▸ hmem)
  received w k arrival hpc := h.received w k arrival (hgenerator ▸ hpc)
  pending request hsome := h.pending request (hgenerator ▸ hsome)

omit [NeZero capacity] in
/-- The generator goes to an access with no request under way. -/
theorem of_quiet (h : Stamped s) (hpolled : ∀ w, (t.desk w).polled = (s.desk w).polled)
    (hpending : t.generator.pending = none) (hreceive : ∀ w k arrival, t.generator ≠ .receive w k arrival) :
    Stamped t where
  polled w arrival hmem := h.polled w arrival (hpolled w ▸ hmem)
  received w k arrival hpc := absurd hpc (hreceive w k arrival)
  pending request hsome := by simp [hpending] at hsome

omit [NeZero capacity] in
theorem nextPoll_ne_receive (w v : Fin S.numWorkers) (i k : Nat) (arrival : UInt64) :
    (nextPoll S w i : GeneratorPc S.numWorkers capacity) ≠ .receive v k arrival := by
  unfold nextPoll
  split <;> simp

theorem moveWorker (h : Stamped s) (w : Fin S.numWorkers) (now : UInt64) : Stamped (s.moveWorker w now) :=
  h.of_same (Polled.setDesk_polled (Desk.move_polled ..)) rfl

omit [NeZero capacity] in
theorem moveMain (h : Stamped s) : Stamped s.moveMain := by
  unfold HandOff.moveMain
  split
  · split
    · split
      · exact h.of_same (fun _ => rfl) rfl
      · exact h
    · exact h.of_same (fun _ => rfl) rfl
  · split
    · exact h.of_same (Polled.setDesk_polled rfl) rfl
    · exact h
  · exact h.of_same (fun _ => rfl) rfl
  · exact h

omit [NeZero capacity] in
/-- A request goes into a vector with the arrival time that it was polled with. -/
theorem push (h : Stamped s) {w : Fin S.numWorkers} {requests : List Request} {request : Request} {i : Nat}
    (hrequest : request.requestGenerated ≠ 0) :
    Stamped ((s.setDesk w { (s.desk w).setRequests requests with
      polled := ((s.desk w).setRequests requests).polled ++ [request.toArrival] }).goto (nextPoll S w i)) where
  polled v arrival hmem := by
    have hmem' : arrival ∈ (Function.update s.desk w { (s.desk w).setRequests requests with
      polled := (s.desk w).polled ++ [request.toArrival] } v).polled := hmem
    by_cases hv : v = w
    · subst hv
      rw [Function.update_self] at hmem'
      rcases List.mem_append.mp hmem' with hbefore | hnew
      · exact h.polled v arrival hbefore
      · rw [List.mem_singleton.mp hnew]
        exact hrequest
    · rw [Function.update_of_ne hv] at hmem'
      exact h.polled v arrival hmem'
  received v k arrival hpc := absurd hpc (nextPoll_ne_receive w v i k arrival)
  pending request' hsome := by
    have hnone : (nextPoll S w i : GeneratorPc S.numWorkers capacity).pending = some request' := hsome
    simp [pending_nextPoll] at hnone

theorem moveGenerator (h : Stamped s) (input : Input) : Stamped (s.moveGenerator input) := by
  have hfailed : Stamped (s.goto .failed) := h.of_quiet (fun _ => rfl) rfl (by simp [HandOff.goto])
  unfold HandOff.moveGenerator
  cases hpc : s.generator with
  | wait =>
    dsimp only
    split
    · exact h.of_quiet (fun _ => rfl) rfl (by simp [HandOff.goto])
    · exact h
  | launch => exact h.of_quiet (fun _ => rfl) rfl (by simp)
  | stopped w | failed => exact h
  | enter i | hand w add =>
    dsimp only
    split <;> exact h.of_quiet (fun _ => rfl) rfl (by simp [HandOff.goto])
  | look w get | confirm w get =>
    dsimp only
    split
    · exact h.of_quiet (fun _ => rfl) rfl (by simp [HandOff.goto])
    · split <;> exact h.of_quiet (fun _ => rfl) rfl (by simp [HandOff.goto])
  | expectZero w | testEmpty w | bound w =>
    apply withWork_of hfailed
    intro work
    split <;> exact h.of_quiet (fun _ => rfl) rfl (by simp [HandOff.goto])
  | measure w =>
    apply withWork_of hfailed
    intro work
    exact h.of_quiet (fun _ => rfl) rfl (by simp [HandOff.goto])
  | clear w =>
    apply withWork_of hfailed
    intro work
    exact h.of_quiet (Polled.setDesk_polled rfl) (pending_nextPoll w 0) fun v k arrival =>
      nextPoll_ne_receive w v 0 k arrival
  | store w num =>
    apply withWork_of hfailed
    intro work
    exact h.of_quiet (Polled.setDesk_polled rfl) rfl (by simp [HandOff.goto])
  | arrive w k =>
    dsimp only
    split
    · exact h.of_quiet (fun _ => rfl) rfl (by simp [HandOff.goto])
    · rename_i hstart
      split
      · constructor
        case polled => exact h.polled
        case received =>
          intro v i arrival hreceive
          obtain ⟨-, -, rfl⟩ := GeneratorPc.receive.inj hreceive
          exact hstart
        case pending => exact fun _ hsome => by cases hsome
      · exact h.of_quiet (fun _ => rfl) rfl (by simp [HandOff.goto])
  | receive w k arrival =>
    constructor
    case polled => exact h.polled
    case received => exact fun _ _ _ hreceive => by cases hreceive
    case pending =>
      intro request hsome
      obtain rfl := Option.some.inj hsome
      exact h.received w k arrival hpc
  | assign w k request =>
    have hstamped := h.pending request (by rw [hpc]; rfl)
    constructor
    case polled => exact h.polled
    case received => exact fun _ _ _ hreceive => by cases hreceive
    case pending =>
      intro request' hsome
      obtain rfl := Option.some.inj hsome
      exact hstamped
  | push w k request =>
    apply withWork_of hfailed
    intro work
    exact h.push (h.pending request (by rw [hpc]; rfl))

theorem move (h : Stamped s) (thread : Thread S.numWorkers) (input : Input) : Stamped (s.move thread input) := by
  have hticked : Stamped { s with clock := input.now } := h.of_same (fun _ => rfl) rfl
  cases thread with
  | main => exact hticked.moveMain
  | generator => exact hticked.moveGenerator input
  | worker w => exact hticked.moveWorker w input.now

end Stamped

namespace Experiment

variable {s t : Experiment S capacity}

theorem stamped_of_runs {e : Epistle UInt32 capacity} {actions : List (Thread S.numWorkers × Signal)}
    (hrun : Runs SettledStep (Experiment.init S e) actions s) : Stamped s.handOff := by
  have hstart : Stamped (Experiment.init S e).handOff := by
    constructor
    case polled => exact fun _ _ hmem => absurd hmem List.not_mem_nil
    case received => exact fun _ _ _ hpc => by cases hpc
    case pending => exact fun _ hsome => by cases hsome
  apply hrun.invariant (P := fun t => Stamped t.handOff) hstart
  intro t action u h hstep
  obtain ⟨⟨-, rfl⟩, -⟩ := hstep
  rcases move_handOff action.1 action.2 t with hmove | ⟨epistle, hmove⟩
  · rw [hmove]
    exact h.move action.1 action.2.toInput
  · rw [hmove]
    exact h.of_same (fun _ => rfl) rfl

/-- The requests that have been passed to `HandleRequest`, by all workers. -/
def handled (s : Experiment S capacity) : List Arrival :=
  (List.finRange S.numWorkers).flatMap fun w => (s.handOff.desk w).handled

omit [NeZero capacity] in
theorem requests_perm (s : Experiment S capacity) :
    (s.requests.flatMap fun workerRequests => workerRequests.2).Perm
      ((List.finRange S.numWorkers).flatMap fun w => (s.handOff.desk w).recorded) := by
  have hsort := (List.perm_insertionSort (fun a b : UInt32 × List Request => a.1 ≤ b.1)
    ((List.finRange S.numWorkers).map fun w => ((S.tid w).toUInt32, (s.handOff.desk w).recorded))).flatMap_right
      fun workerRequests => workerRequests.2
  rwa [List.flatMap_map] at hsort

omit [NeZero capacity] in
theorem mem_requests {r : Request} :
    r ∈ (s.requests.flatMap fun workerRequests => workerRequests.2) ↔ ∃ w, r ∈ (s.handOff.desk w).recorded := by
  rw [s.requests_perm.mem_iff]
  simp

end Experiment

/-! ### One row -/

/-- The latencies of a row, from the lowest to the highest. -/
structure Results.Ascending (results : Results Nat) : Prop where
  min_le : results.min ≤ results.fifty
  fifty_le : results.fifty ≤ results.ninetynine
  ninetynine_le : results.ninetynine ≤ results.ninetyninefive
  ninetyninefive_le : results.ninetyninefive ≤ results.ninetyninenine
  ninetyninenine_le : results.ninetyninenine ≤ results.max

/-- The latency of one request, in the unit of the report. -/
def StageArguments.took (options : Options) (stage : StageArguments) (r : Request) : Nat :=
  ((stage.secondTimestamp r - stage.firstTimestamp r) / options.divisor).toNat

/-- The row of a stage that all of the requests have gone through. -/
structure Row (options : Options) (requests : List Request) (tracked : UInt64) (stage : StageArguments)
    (results : Results Nat) : Prop where
  total : results.total = requests.length
  throughput : results.throughput = requests.length / (tracked.toNat / ns2s.toNat)
  ascending : results.Ascending
  least : IsLeast {n | ∃ r ∈ requests, stage.took options r = n} results.min
  greatest : IsGreatest {n | ∃ r ∈ requests, stage.took options r = n} results.max

section Row

variable {options : Options} {durations : List UInt64} {requests : List Request} {tracked : UInt64}
  {stage : StageArguments}

theorem Options.div_le {x y : UInt64} (hle : x ≤ y) : (x / options.divisor).toNat ≤ (y / options.divisor).toNat := by
  rw [UInt64.toNat_div, UInt64.toNat_div]
  exact Nat.div_le_div_right (UInt64.le_iff_toNat_le.mp hle)

theorem le_of_index_le (hsorted : durations.Pairwise (· ≤ ·)) {i j : Nat} {x y : UInt64} (hx : durations[i]? = some x)
    (hy : durations[j]? = some y) (hle : i ≤ j) : x ≤ y := by
  obtain ⟨hi, rfl⟩ := List.getElem?_eq_some_iff.mp hx
  obtain ⟨hj, rfl⟩ := List.getElem?_eq_some_iff.mp hy
  rcases Nat.lt_or_eq_of_le hle with hlt | rfl
  · exact List.pairwise_iff_getElem.mp hsorted i j hi hj hlt
  · exact UInt64.le_refl _

theorem StageArguments.durations_perm (hset : ∀ r ∈ requests, stage.secondTimestamp r ≠ 0) :
    (stage.durations requests).Perm
      (requests.map fun r => stage.secondTimestamp r - stage.firstTimestamp r) := by
  have hall : requests.filter (fun r => stage.secondTimestamp r ≠ 0) = requests := by
    rw [List.filter_eq_self]
    intro r hr
    exact decide_eq_true (hset r hr)
  have hperm : (stage.durations requests).Perm ((requests.filter fun r => stage.secondTimestamp r ≠ 0).map
      fun r => stage.secondTimestamp r - stage.firstTimestamp r) := getStageResults_perm
  rwa [hall] at hperm

theorem handleStage_row (hset : ∀ r ∈ requests, stage.secondTimestamp r ≠ 0) (hne : requests ≠ [])
    (hsecond : ns2s.toNat ≤ tracked.toNat) :
    ∃ results, handleStage stage requests tracked options = .ok (.numbers stage.name results) ∧
      Row options requests tracked stage results := by
  have hsorted : (stage.durations requests).Pairwise (· ≤ ·) := getStageResults_sorted
  have hperm := StageArguments.durations_perm hset
  have hdurations : stage.durations requests ≠ [] := by
    intro hempty
    rw [hempty] at hperm
    exact hne (List.map_eq_nil_iff.mp hperm.nil_eq.symm)
  obtain ⟨fifty, ninetynine, ninetyninefive, ninetyninenine, h50, h99, h995, h999, hreport⟩ := printStage_eq hdurations
  have hline := hreport tracked stage.name options
  rw [← handleStage, divide_ns2s_ok hsecond] at hline
  have hlength : (stage.durations requests).length = requests.length := by simpa using hperm.length_eq
  have hhead : (stage.durations requests)[0]? = some ((stage.durations requests).head hdurations) := by
    rw [← List.head?_eq_getElem?, List.head?_eq_some_head]
  have hlast : (stage.durations requests)[(stage.durations requests).length - 1]? =
      some ((stage.durations requests).getLast hdurations) := by
    rw [← List.getLast?_eq_getElem?, List.getLast?_eq_some_getLast]
  have hwithin : ∀ {i x}, (stage.durations requests)[i]? = some x → i ≤ (stage.durations requests).length - 1 := by
    intro i x hx
    have hi := (List.getElem?_eq_some_iff.mp hx).1
    omega
  have htook : ∀ x ∈ stage.durations requests, ∃ r ∈ requests, stage.took options r = (x / options.divisor).toNat := by
    intro x hx
    obtain ⟨r, hr, rfl⟩ := List.mem_map.mp (hperm.mem_iff.mp hx)
    exact ⟨r, hr, rfl⟩
  have hlisted : ∀ r ∈ requests, ∃ i : Nat, (stage.durations requests)[i]? =
      some (stage.secondTimestamp r - stage.firstTimestamp r) := by
    intro r hr
    exact List.mem_iff_getElem?.mp (hperm.mem_iff.mpr (List.mem_map_of_mem hr))
  refine ⟨_, hline, ?_⟩
  constructor
  case total => exact hlength
  case throughput => exact congrArg (· / (tracked.toNat / ns2s.toNat)) hlength
  case ascending =>
    constructor
    · exact Options.div_le (le_of_index_le hsorted hhead h50 (Nat.zero_le _))
    · exact Options.div_le (le_of_index_le hsorted h50 h99 (by omega))
    · exact Options.div_le (le_of_index_le hsorted h99 h995 (by omega))
    · exact Options.div_le (le_of_index_le hsorted h995 h999 (by omega))
    · exact Options.div_le (le_of_index_le hsorted h999 hlast (hwithin h999))
  case least =>
    refine ⟨htook _ (List.head_mem hdurations), ?_⟩
    rintro n ⟨r, hr, rfl⟩
    obtain ⟨i, hi⟩ := hlisted r hr
    exact Options.div_le (le_of_index_le hsorted hhead hi (Nat.zero_le i))
  case greatest =>
    refine ⟨htook _ (List.getLast_mem hdurations), ?_⟩
    rintro n ⟨r, hr, rfl⟩
    obtain ⟨i, hi⟩ := hlisted r hr
    exact Options.div_le (le_of_index_le hsorted hi hlast (hwithin hi))

end Row

/-! ### All rows -/

def ingressQueueTime : StageArguments where
  name := "Ingress Queue Time"
  firstTimestamp := fun r => r.requestGenerated
  secondTimestamp := fun r => r.requestReceived

def repeatableHandleTime : StageArguments where
  name := "Repeatable Handle Time"
  firstTimestamp := fun r => r.requestReceived
  secondTimestamp := fun r => r.requestAssigned

def workerQueueTime : StageArguments where
  name := "Worker Queue Time"
  firstTimestamp := fun r => r.requestAssigned
  secondTimestamp := fun r => r.requestStart

def workerHandleTime : StageArguments where
  name := "Worker Handle Time"
  firstTimestamp := fun r => r.requestStart
  secondTimestamp := fun r => r.requestFinished

def totalTime : StageArguments where
  name := "Total"
  firstTimestamp := fun r => r.requestGenerated
  secondTimestamp := fun r => r.requestFinished

theorem stages_eq {options : Options} (hall : options.printLast = false) :
    stages options = [ingressQueueTime, repeatableHandleTime, workerQueueTime, workerHandleTime, totalTime] := by
  unfold stages
  rw [hall]
  rfl

/-- What rounding down to the unit of the report can lose between the four stages and their total. -/
def Options.slack (options : Options) : Nat := if options.ns then 0 else 3

/-- How the row of the total fits to the rows of the four stages. -/
structure Consistent (options : Options) (ingress repeatable queue handle total : Results Nat) : Prop where
  least : ingress.min + repeatable.min + queue.min + handle.min ≤ total.min
  greatest : ∀ results ∈ [ingress, repeatable, queue, handle], results.max ≤ total.max
  sum : total.max ≤ ingress.max + repeatable.max + queue.max + handle.max + options.slack

section AllRows

variable {options : Options} {requests : List Request} {tracked : UInt64} {r : Request}

/-- The latencies of the four stages make up the total. -/
theorem took_total (options : Options) (hordered : r.Ordered) :
    ingressQueueTime.took options r + repeatableHandleTime.took options r + workerQueueTime.took options r +
        workerHandleTime.took options r ≤ totalTime.took options r ∧
      totalTime.took options r ≤ ingressQueueTime.took options r + repeatableHandleTime.took options r +
        workerQueueTime.took options r + workerHandleTime.took options r + options.slack := by
  have htotal : r.requestGenerated ≤ r.requestFinished :=
    UInt64.le_trans hordered.generated_le (UInt64.le_trans hordered.received_le
      (UInt64.le_trans hordered.assigned_le hordered.start_le))
  have h1 := UInt64.le_iff_toNat_le.mp hordered.generated_le
  have h2 := UInt64.le_iff_toNat_le.mp hordered.received_le
  have h3 := UInt64.le_iff_toNat_le.mp hordered.assigned_le
  have h4 := UInt64.le_iff_toNat_le.mp hordered.start_le
  simp only [StageArguments.took, ingressQueueTime, repeatableHandleTime, workerQueueTime, workerHandleTime, totalTime,
    UInt64.toNat_div, UInt64.toNat_sub_of_le _ _ hordered.generated_le,
    UInt64.toNat_sub_of_le _ _ hordered.received_le, UInt64.toNat_sub_of_le _ _ hordered.assigned_le,
    UInt64.toNat_sub_of_le _ _ hordered.start_le, UInt64.toNat_sub_of_le _ _ htotal]
  unfold Options.divisor Options.slack
  cases options.ns with
  | true =>
    have hone : (1 : UInt64).toNat = 1 := rfl
    simp only [if_true, hone, Nat.div_one]
    omega
  | false =>
    have hthousand : (1000 : UInt64).toNat = 1000 := rfl
    simp only [Bool.false_eq_true, if_false, hthousand]
    omega

/-- Rows of the same requests, whose times are in order. -/
theorem consistent_of_rows (hordered : ∀ r ∈ requests, r.Ordered) {ingress repeatable queue handle total : Results Nat}
    (hingress : Row options requests tracked ingressQueueTime ingress)
    (hrepeatable : Row options requests tracked repeatableHandleTime repeatable)
    (hqueue : Row options requests tracked workerQueueTime queue)
    (hhandle : Row options requests tracked workerHandleTime handle)
    (htotal : Row options requests tracked totalTime total) :
    Consistent options ingress repeatable queue handle total := by
  -- the latency of every request is at most the largest of its row
  have hmost : ∀ {stage : StageArguments} {results : Results Nat}, Row options requests tracked stage results →
      ∀ r ∈ requests, results.min ≤ stage.took options r ∧ stage.took options r ≤ results.max := by
    intro stage results hrow r hr
    exact ⟨hrow.least.2 ⟨r, hr, rfl⟩, hrow.greatest.2 ⟨r, hr, rfl⟩⟩
  -- the request with the largest latency of a stage takes at least as long in total
  have hpart : ∀ {stage : StageArguments} {results : Results Nat}, Row options requests tracked stage results →
      (∀ r ∈ requests, stage.took options r ≤ totalTime.took options r) → results.max ≤ total.max := by
    intro stage results hrow hle
    obtain ⟨r, hr, hmax⟩ := hrow.greatest.1
    calc results.max = stage.took options r := hmax.symm
      _ ≤ totalTime.took options r := hle r hr
      _ ≤ total.max := (hmost htotal r hr).2
  constructor
  case least =>
    obtain ⟨r, hr, hmin⟩ := htotal.least.1
    have hsplit := (took_total options (hordered r hr)).1
    have h1 := (hmost hingress r hr).1
    have h2 := (hmost hrepeatable r hr).1
    have h3 := (hmost hqueue r hr).1
    have h4 := (hmost hhandle r hr).1
    omega
  case greatest =>
    simp only [List.forall_mem_cons]
    refine ⟨hpart hingress ?_, hpart hrepeatable ?_, hpart hqueue ?_, hpart hhandle ?_, fun _ hmem => by cases hmem⟩
    all_goals
      intro r hr
      have hsplit := (took_total options (hordered r hr)).1
      omega
  case sum =>
    obtain ⟨r, hr, hmax⟩ := htotal.greatest.1
    have hsplit := (took_total options (hordered r hr)).2
    have h1 := (hmost hingress r hr).2
    have h2 := (hmost hrepeatable r hr).2
    have h3 := (hmost hqueue r hr).2
    have h4 := (hmost hhandle r hr).2
    omega

end AllRows

/-! ### The report of an experiment -/

namespace Experiment

variable {s : Experiment S capacity} {options : Options} {startTime : Int64}

/-- The requests that the report is about. -/
def kept (options : Options) (startTime : Int64) (s : Experiment S capacity) : List Request :=
  filterRequests s.requests fun r => !shouldDiscard options startTime r

omit [NeZero capacity] in
theorem mem_kept {r : Request} (hr : r ∈ s.kept options startTime) : ∃ w, r ∈ (s.handOff.desk w).recorded :=
  mem_requests.mp (List.mem_filter.mp hr).1

/-- What holds of the requests when `main` has joined everybody. -/
structure Finished (s : Experiment S capacity) : Prop where
  recorded : ∀ w, (s.handOff.desk w).recorded.map (·.toArrival) = (s.handOff.desk w).handled
  ordered : ∀ w, ∀ r ∈ (s.handOff.desk w).recorded, r.Ordered
  stamped : ∀ w, ∀ r ∈ (s.handOff.desk w).recorded, r.requestGenerated ≠ 0

theorem Inv.finished_of_stamped (h : Inv s) (hstamped : Stamped s.handOff) (hfinished : s.main.joinedAll = true) :
    s.Finished where
  recorded w := (h.finished hfinished w).2.2.2.1
  ordered w := (h.finished hfinished w).2.2.2.2
  stamped w r hr := by
    obtain ⟨-, hpolled, -, hrecorded, -⟩ := h.finished hfinished w
    have hhandled : r.toArrival ∈ (s.handOff.desk w).handled := hrecorded ▸ List.mem_map_of_mem hr
    apply hstamped.polled w r.toArrival
    rw [hpolled]
    exact List.mem_append_left _ hhandled

namespace Finished

omit [NeZero capacity] in
/-- The report is about the handled requests that were generated when the discarded time was over. -/
theorem kept_perm (h : s.Finished) : ((s.kept options startTime).map (·.toArrival)).Perm
    (s.handled.filter fun arrival => !(arrival.requestGenerated < startTime.toUInt64 + options.discarded : Bool)) := by
  have harrivals : (s.kept options startTime).map (·.toArrival) =
      ((s.requests.flatMap fun workerRequests => workerRequests.2).map (·.toArrival)).filter
        fun arrival => !(arrival.requestGenerated < startTime.toUInt64 + options.discarded : Bool) := by
    rw [List.filter_map]
    rfl
  have hhandled : s.handled =
      ((List.finRange S.numWorkers).flatMap fun w => (s.handOff.desk w).recorded).map (·.toArrival) := by
    rw [List.map_flatMap]
    simp only [handled, h.recorded]
  rw [harrivals, hhandled]
  exact (s.requests_perm.map _).filter _

omit [NeZero capacity] in
/-- Every time that a row tests is set. -/
theorem set (h : s.Finished) {r : Request} (hr : r ∈ s.kept options startTime) :
    ∀ stage ∈ [ingressQueueTime, repeatableHandleTime, workerQueueTime, workerHandleTime, totalTime],
      stage.secondTimestamp r ≠ 0 := by
  obtain ⟨w, hrecorded⟩ := mem_kept hr
  have hordered := h.ordered w r hrecorded
  have hgenerated : r.requestGenerated.toNat ≠ 0 := fun hzero =>
    h.stamped w r hrecorded (UInt64.toNat_inj.mp hzero)
  have h1 := UInt64.le_iff_toNat_le.mp hordered.generated_le
  have h2 := UInt64.le_iff_toNat_le.mp hordered.received_le
  have h3 := UInt64.le_iff_toNat_le.mp hordered.assigned_le
  have h4 := UInt64.le_iff_toNat_le.mp hordered.start_le
  have hpos : ∀ {time : UInt64}, 0 < time.toNat → time ≠ 0 := by
    intro time htime hzero
    rw [hzero] at htime
    exact Nat.lt_irrefl 0 htime
  simp only [List.forall_mem_cons]
  refine ⟨hpos ?_, hpos ?_, hpos ?_, hpos ?_, hpos ?_, fun _ hmem => by cases hmem⟩
  all_goals
    simp only [ingressQueueTime, repeatableHandleTime, workerQueueTime, workerHandleTime, totalTime]
    omega

end Finished

/-- **The report is consistent.** When `main` has joined everybody and at least a second has been tracked, the report is about the handled requests that were generated after the discarded time, each once. If there are any, it has a row for each of the four stages and one for the total, and each of them counts all of these requests, at the same throughput; its latencies ascend from the least to the greatest one that a request has taken in that stage. The least latencies of the stages add up to no more than the least total, and the greatest total is between the greatest latency of each stage and what these add up to. -/
theorem report_consistent {e : Epistle UInt32 capacity} (hlacks : ∀ w, e.Lacks (S.tid w)) (hblank : e.Blank)
    {actions : List (Thread S.numWorkers × Signal)} (hrun : Runs SettledStep (Experiment.init S e) actions s)
    (hfinished : s.main.joinedAll = true) (hall : options.printLast = false) (startTime : Int64) {runtime : UInt64}
    (hsecond : ns2s.toNat ≤ (runtime - options.discarded).toNat) :
    ((s.kept options startTime).map (·.toArrival)).Perm
      (s.handled.filter fun arrival => !(arrival.requestGenerated < startTime.toUInt64 + options.discarded : Bool)) ∧
    (s.kept options startTime ≠ [] → ∃ ingress repeatable queue handle total,
      printResults options startTime s.requests runtime =
        .ok [.text "Stats:", .text "All:", printPrettyPreface options, .numbers "Ingress Queue Time" ingress,
          .numbers "Repeatable Handle Time" repeatable, .numbers "Worker Queue Time" queue,
          .numbers "Worker Handle Time" handle, .numbers "Total" total] ∧
      Row options (s.kept options startTime) (runtime - options.discarded) ingressQueueTime ingress ∧
      Row options (s.kept options startTime) (runtime - options.discarded) repeatableHandleTime repeatable ∧
      Row options (s.kept options startTime) (runtime - options.discarded) workerQueueTime queue ∧
      Row options (s.kept options startTime) (runtime - options.discarded) workerHandleTime handle ∧
      Row options (s.kept options startTime) (runtime - options.discarded) totalTime total ∧
      Consistent options ingress repeatable queue handle total) := by
  have h : s.Finished := (Inv.of_runs hlacks hblank hrun).finished_of_stamped (stamped_of_runs hrun) hfinished
  refine ⟨h.kept_perm, fun hkept => ?_⟩
  have hordered : ∀ r ∈ s.kept options startTime, r.Ordered := by
    intro r hr
    obtain ⟨w, hrecorded⟩ := mem_kept hr
    exact h.ordered w r hrecorded
  have hrow : ∀ stage ∈ [ingressQueueTime, repeatableHandleTime, workerQueueTime, workerHandleTime, totalTime],
      ∃ results, handleStage stage (s.kept options startTime) (runtime - options.discarded) options =
        .ok (.numbers stage.name results) ∧
        Row options (s.kept options startTime) (runtime - options.discarded) stage results :=
    fun stage hstage => handleStage_row (fun r hr => h.set hr stage hstage) hkept hsecond
  obtain ⟨ingress, hline1, hingress⟩ := hrow ingressQueueTime (by simp)
  obtain ⟨repeatable, hline2, hrepeatable⟩ := hrow repeatableHandleTime (by simp)
  obtain ⟨queue, hline3, hqueue⟩ := hrow workerQueueTime (by simp)
  obtain ⟨handle, hline4, hhandle⟩ := hrow workerHandleTime (by simp)
  obtain ⟨total, hline5, htotal⟩ := hrow totalTime (by simp)
  refine ⟨ingress, repeatable, queue, handle, total, ?_, hingress, hrepeatable, hqueue, hhandle, htotal,
    consistent_of_rows hordered hingress hrepeatable hqueue hhandle htotal⟩
  apply printResults_iff.mpr
  show handleStages (s.kept options startTime) _ options (stages options) = _
  rw [stages_eq hall]
  simp only [handleStages, hline1, hline2, hline3, hline4, hline5, bind, Except.bind]
  rfl

end Experiment

open Experiment

def keepAll : Options := { discardDuration := 0 }

/-- A row of one request for which the clock has shown the same time all along. -/
def atOnce : Results Nat := ⟨1, 1, 0, 0, 0, 0, 0, 0⟩

set_option maxRecDepth 8000 in
theorem report_consistent_first :
    printResults keepAll 0 (afterExit 4).requests 1000000000 =
      .ok [.text "Stats:", .text "All:", printPrettyPreface keepAll, .numbers "Ingress Queue Time" atOnce,
        .numbers "Repeatable Handle Time" atOnce, .numbers "Worker Queue Time" atOnce,
        .numbers "Worker Handle Time" atOnce, .numbers "Total" atOnce] ∧
    Consistent keepAll atOnce atOnce atOnce atOnce atOnce := by
  have hlacks : ∀ w, (Epistle.init : Epistle UInt32 4).Lacks (oneWorker.tid w) := fun _ idx hidx => by
    rw [Epistle.occ_init] at hidx
    cases hidx
  obtain ⟨actions, -, hrun⟩ := runs_afterExit
  have hreport : printResults keepAll 0 (afterExit 4).requests 1000000000 =
      .ok [.text "Stats:", .text "All:", printPrettyPreface keepAll, .numbers "Ingress Queue Time" atOnce,
        .numbers "Repeatable Handle Time" atOnce, .numbers "Worker Queue Time" atOnce,
        .numbers "Worker Handle Time" atOnce, .numbers "Total" atOnce] := by decide
  have hsecond : ns2s.toNat ≤ ((1000000000 : UInt64) - keepAll.discarded).toNat := by decide
  obtain ⟨-, hrows⟩ := report_consistent hlacks Epistle.blank_init hrun (by decide) rfl 0 hsecond
  obtain ⟨ingress, repeatable, queue, handle, total, hprint, -, -, -, -, -, hconsistent⟩ := hrows (by decide)
  rw [hreport] at hprint
  obtain ⟨-, -, rfl, rfl, rfl, rfl, rfl⟩ := hprint
  exact ⟨hreport, hconsistent⟩

end Workload

end CosUserspace
