import CosUserspace.Workload.Found
import CosUserspace.Workload.Shutdown
import Mathlib.Algebra.BigOperators.Group.Finset.Piecewise

/-!
# The load does not depend on the workers

The ingress queue computes each arrival time from the one before and a random duration, and not from the time at which the generator polls it. So the arrival times of the requests are those of the arrival process, whatever the workers do and however late the generator is: they are dealt out to the workers one by one and in their order, none is left out, and each worker gets its share in order.
-/

namespace CosUserspace

namespace Workload

/-! ### Dealing out -/

section Dealt

variable {ι : Type} [DecidableEq ι]

/-- The numbers of those items that go to `w`, when the item `k` goes to `owners[k]`. -/
def dealt (owners : List ι) (w : ι) : List Nat :=
  (List.range owners.length).filter fun k => owners[k]? = some w

@[simp] theorem dealt_nil (w : ι) : dealt [] w = [] := rfl

theorem dealt_snoc (owners : List ι) (v w : ι) :
    dealt (owners ++ [v]) w = dealt owners w ++ if v = w then [owners.length] else [] := by
  unfold dealt
  rw [List.length_append, List.length_singleton, List.range_succ, List.filter_append]
  congr 1
  · apply List.filter_congr
    intro k hk
    rw [List.getElem?_append_left (List.mem_range.mp hk)]
  · rw [List.filter_singleton, List.getElem?_concat_length]
    by_cases hv : v = w <;> simp [hv]

end Dealt

/-- The arrival times that the ingress queue computes: it starts at the time `launched`, and draws the duration `gap k` after the arrival `k`. -/
def arrivalTime (launched : UInt64) (gap : Nat → UInt64) : Nat → UInt64
  | 0 => launched
  | k + 1 => arrivalTime launched gap k + gap k

variable {capacity : Nat} [NeZero capacity] {S : Setup}

namespace HandOff

/-- The number of requests that the generator has put into a vector. -/
def polledCount (s : HandOff S capacity) : Nat := ∑ w, (s.desk w).polled.length

/-- The generator reads `launched` when it starts the ingress queue, and `gap k` is what the arrival `k` draws. -/
def Draws (launched : UInt64) (gap : Nat → UInt64) (s : HandOff S capacity) : Thread S.numWorkers × Input → Prop
  | (.generator, input) => (s.generator = .launch → input.now = launched) ∧
      ∀ w k, s.generator = .arrive w k → input.gap = gap s.polledCount
  | (.main, _) | (.worker _, _) => True

/-- What the ingress queue and the generator hold after `n` requests. -/
def NextArrival (launched : UInt64) (gap : Nat → UInt64) (n : Nat) (s : HandOff S capacity) : Prop :=
  match s.generator with
  | .wait | .launch => n = 0
  | .receive _ _ arrival => arrival = arrivalTime launched gap n ∧ s.start = arrivalTime launched gap (n + 1)
  | .assign _ _ request | .push _ _ request =>
    request.requestGenerated = arrivalTime launched gap n ∧ s.start = arrivalTime launched gap (n + 1)
  | .failed => True
  | _ => s.start = arrivalTime launched gap n

end HandOff

open HandOff

/-- The requests so far are the first `owners.length` arrivals, and the request `k` went to `owners[k]`. -/
structure Dealing (launched : UInt64) (gap : Nat → UInt64) (owners : List (Fin S.numWorkers))
    (s : HandOff S capacity) : Prop where
  polled : ∀ w, (s.desk w).polled.map (·.requestGenerated) = (dealt owners w).map (arrivalTime launched gap)
  count : s.polledCount = owners.length
  next : s.NextArrival launched gap owners.length

namespace Dealing

variable {launched : UInt64} {gap : Nat → UInt64} {owners : List (Fin S.numWorkers)} {s t : HandOff S capacity}

omit [NeZero capacity] in
theorem init {e : Epistle UInt32 capacity} : Dealing launched gap [] (HandOff.init S e) where
  polled w := rfl
  count := by simp [polledCount, HandOff.init]
  next := rfl

omit [NeZero capacity] in
/-- No request goes into a vector. -/
theorem of_same (h : Dealing launched gap owners s) (hpolled : ∀ w, (t.desk w).polled = (s.desk w).polled)
    (hnext : t.NextArrival launched gap owners.length) : Dealing launched gap owners t where
  polled w := by rw [hpolled w, h.polled w]
  count := by
    rw [← h.count]
    unfold polledCount
    simp only [hpolled]
  next := hnext

omit [NeZero capacity] in
/-- Neither the ingress queue nor the generator moves. -/
theorem of_frame (h : Dealing launched gap owners s) (hpolled : ∀ w, (t.desk w).polled = (s.desk w).polled)
    (hgenerator : t.generator = s.generator) (hstart : t.start = s.start) : Dealing launched gap owners t := by
  apply h.of_same hpolled
  have hnext := h.next
  unfold NextArrival at hnext ⊢
  rwa [hgenerator, hstart]

omit [NeZero capacity] in
theorem nextArrival_nextPoll {n : Nat} (w : Fin S.numWorkers) (k : Nat) (hgenerator : t.generator = nextPoll S w k)
    (hstart : t.start = arrivalTime launched gap n) : t.NextArrival launched gap n := by
  unfold nextPoll at hgenerator
  split at hgenerator
  · simpa only [NextArrival, hgenerator] using hstart
  · simpa only [NextArrival, hgenerator] using hstart

omit [NeZero capacity] in
theorem polledCount_push {w : Fin S.numWorkers} {d : Desk capacity} {arrival : Arrival}
    (hd : d.polled = (s.desk w).polled ++ [arrival]) : (s.setDesk w d).polledCount = s.polledCount + 1 := by
  have hone : ∀ v, ((s.setDesk w d).desk v).polled.length = (s.desk v).polled.length + if v = w then 1 else 0 := by
    intro v
    show (Function.update s.desk w d v).polled.length = _
    by_cases hv : v = w
    · subst hv
      rw [Function.update_self, hd, List.length_append, if_pos rfl, List.length_singleton]
    · rw [Function.update_of_ne hv, if_neg hv, Nat.add_zero]
  unfold polledCount
  simp only [hone, Finset.sum_add_distrib, Finset.sum_ite_eq', Finset.mem_univ, if_true]

omit [NeZero capacity] in
/-- The generator puts the request that is under way into the vector of the worker `w`. -/
theorem push (h : Dealing launched gap owners s) {w : Fin S.numWorkers} {k : Nat} {request : Request}
    (hgenerator : s.generator = .push w k request) (requests : List Request) :
    Dealing launched gap (owners ++ [w]) ((s.setDesk w { (s.desk w).setRequests requests with
      polled := ((s.desk w).setRequests requests).polled ++ [request.toArrival] }).goto (nextPoll S w (k + 1))) := by
  have hnext := h.next
  simp only [NextArrival, hgenerator] at hnext
  constructor
  case polled =>
    intro v
    show (Function.update s.desk w _ v).polled.map _ = _
    rw [dealt_snoc, List.map_append, ← h.polled v]
    by_cases hv : v = w
    · subst hv
      rw [Function.update_self, if_pos rfl, List.map_singleton, ← hnext.1]
      exact List.map_append
    · rw [Function.update_of_ne hv, if_neg (Ne.symm hv), List.map_nil, List.append_nil]
  case count =>
    rw [List.length_append, List.length_singleton, ← h.count]
    exact polledCount_push rfl
  case next =>
    rw [List.length_append, List.length_singleton]
    exact nextArrival_nextPoll w (k + 1) rfl hnext.2

theorem moveWorker (h : Dealing launched gap owners s) (w : Fin S.numWorkers) (now : UInt64) :
    Dealing launched gap owners (s.moveWorker w now) :=
  h.of_frame (Polled.setDesk_polled (Desk.move_polled ..)) rfl rfl

omit [NeZero capacity] in
theorem moveMain (h : Dealing launched gap owners s) : Dealing launched gap owners s.moveMain := by
  unfold HandOff.moveMain
  split
  · split
    · split
      · exact h.of_frame (fun _ => rfl) rfl rfl
      · exact h
    · exact h.of_frame (fun _ => rfl) rfl rfl
  · split
    · exact h.of_frame (Polled.setDesk_polled rfl) rfl rfl
    · exact h
  · exact h.of_frame (fun _ => rfl) rfl rfl
  · exact h

theorem moveGenerator (h : Dealing launched gap owners s) {input : Input}
    (hdraws : Draws launched gap s (.generator, input)) :
    ∃ more, Dealing launched gap (owners ++ more) (s.moveGenerator input) := by
  -- the generator takes no request
  have hstay : ∀ {t : HandOff S capacity}, Dealing launched gap owners t →
      ∃ more, Dealing launched gap (owners ++ more) t := by
    intro t ht
    exact ⟨[], by rwa [List.append_nil]⟩
  have hfailed : ∃ more, Dealing launched gap (owners ++ more) (s.goto .failed) :=
    hstay (h.of_same (fun _ => rfl) trivial)
  have hnext := h.next
  unfold HandOff.moveGenerator
  cases hpc : s.generator with
  | wait =>
    simp only [NextArrival, hpc] at hnext
    dsimp only
    split
    · exact hstay (h.of_same (fun _ => rfl) hnext)
    · exact hstay h
  | launch =>
    simp only [NextArrival, hpc] at hnext
    have hnow : input.now = arrivalTime launched gap owners.length := by rw [hnext, hdraws.1 hpc, arrivalTime]
    exact hstay (h.of_same (fun _ => rfl) hnow)
  | stopped w | failed => exact hstay h
  | enter i | hand w add =>
    simp only [NextArrival, hpc] at hnext
    dsimp only
    split <;> exact hstay (h.of_same (fun _ => rfl) hnext)
  | look w get | confirm w get =>
    simp only [NextArrival, hpc] at hnext
    dsimp only
    split
    · exact hstay (h.of_same (fun _ => rfl) hnext)
    · split
      · exact hstay (h.of_same (fun _ => rfl) hnext)
      · first | exact hstay (h.of_same (fun _ => rfl) hnext) | exact hfailed
  | expectZero w | testEmpty w | bound w =>
    simp only [NextArrival, hpc] at hnext
    apply withWork_of (P := fun t => ∃ more, Dealing launched gap (owners ++ more) t) hfailed
    intro work
    split
    · exact hstay (h.of_same (fun _ => rfl) hnext)
    · first | exact hstay (h.of_same (fun _ => rfl) hnext) | exact hfailed
  | measure w =>
    simp only [NextArrival, hpc] at hnext
    apply withWork_of (P := fun t => ∃ more, Dealing launched gap (owners ++ more) t) hfailed
    intro work
    exact hstay (h.of_same (fun _ => rfl) hnext)
  | clear w =>
    simp only [NextArrival, hpc] at hnext
    apply withWork_of (P := fun t => ∃ more, Dealing launched gap (owners ++ more) t) hfailed
    intro work
    exact hstay (h.of_same (Polled.setDesk_polled rfl) (nextArrival_nextPoll w 0 rfl hnext))
  | store w num =>
    simp only [NextArrival, hpc] at hnext
    apply withWork_of (P := fun t => ∃ more, Dealing launched gap (owners ++ more) t) hfailed
    intro work
    exact hstay (h.of_same (Polled.setDesk_polled rfl) hnext)
  | arrive w k =>
    simp only [NextArrival, hpc] at hnext
    dsimp only
    split
    · exact hstay (h.of_same (fun _ => rfl) hnext)
    · split
      · -- the next arrival time is computed from this one
        have hstart : s.start + input.gap = arrivalTime launched gap (owners.length + 1) := by
          rw [hdraws.2 w k hpc, h.count, hnext, arrivalTime]
        exact hstay (h.of_same (fun _ => rfl) ⟨hnext, hstart⟩)
      · exact hstay (h.of_same (fun _ => rfl) hnext)
  | receive w k arrival =>
    simp only [NextArrival, hpc] at hnext
    exact hstay (h.of_same (fun _ => rfl) hnext)
  | assign w k request =>
    simp only [NextArrival, hpc] at hnext
    exact hstay (h.of_same (fun _ => rfl) hnext)
  | push w k request =>
    apply withWork_of (P := fun t => ∃ more, Dealing launched gap (owners ++ more) t) hfailed
    intro work
    exact ⟨[w], h.push hpc _⟩

theorem move (h : Dealing launched gap owners s) {thread : Thread S.numWorkers} {input : Input}
    (hdraws : Draws launched gap s (thread, input)) :
    ∃ more, Dealing launched gap (owners ++ more) (s.move thread input) := by
  have hticked : Dealing launched gap owners { s with clock := input.now } := h.of_frame (fun _ => rfl) rfl rfl
  cases thread with
  | main => exact ⟨[], (List.append_nil owners).symm ▸ hticked.moveMain⟩
  | generator => exact hticked.moveGenerator hdraws
  | worker w => exact ⟨[], (List.append_nil owners).symm ▸ hticked.moveWorker w input.now⟩

end Dealing

/-! ### What a worker has recorded -/

omit [NeZero capacity] in
theorem Desk.Log.recorded_front {stage : Stage} {d : Desk capacity} (hlog : d.Log stage) :
    d.recorded.map (·.toArrival) <+: d.polled := by
  obtain ⟨past, hpolled, -, hrecorded⟩ := hlog
  rw [hpolled, hrecorded]
  exact (List.prefix_append_right_inj past).mpr (List.take_prefix ..)

theorem Closing.recorded_front {batch : Nat} {key : Int32} {e : Epistle UInt32 capacity} {clock : UInt64}
    {d : Desk capacity} (h : Closing batch key e clock d) : d.recorded.map (·.toArrival) <+: d.polled := by
  rcases h with hdesk | hspurious
  · exact hdesk.log.recorded_front
  · rw [hspurious.polled, hspurious.handled]

namespace Experiment

variable {s : Experiment S capacity}

theorem Inv.recorded_front (h : Inv s) (w : Fin S.numWorkers) :
    (s.handOff.desk w).recorded.map (·.toArrival) <+: (s.handOff.desk w).polled := by
  by_cases hworking : s.generator = .working
  · exact ((h.working hworking).desks w).log.recorded_front
  · exact ((h.closed hworking).desks w).recorded_front

/-- A step whose draws are those of the arrival process. -/
def OpenStep (launched : UInt64) (gap : Nat → UInt64) (s : Experiment S capacity)
    (action : Thread S.numWorkers × Signal) (s' : Experiment S capacity) : Prop :=
  SettledStep s action s' ∧ Draws launched gap s.handOff (action.1, action.2.toInput)

theorem dealing_of_runs {launched : UInt64} {gap : Nat → UInt64} {e : Epistle UInt32 capacity}
    {actions : List (Thread S.numWorkers × Signal)}
    (hrun : Runs (OpenStep launched gap) (Experiment.init S e) actions s) :
    ∃ owners, Dealing launched gap owners s.handOff := by
  apply hrun.invariant (P := fun t => ∃ owners, Dealing launched gap owners t.handOff) ⟨[], .init⟩
  intro t action u hdealing hstep
  obtain ⟨owners, h⟩ := hdealing
  obtain ⟨⟨⟨-, rfl⟩, -⟩, hdraws⟩ := hstep
  rcases move_handOff action.1 action.2 t with hmove | ⟨epistle, hmove⟩
  · rw [hmove]
    obtain ⟨more, hmore⟩ := h.move hdraws
    exact ⟨_, hmore⟩
  · rw [hmove]
    exact ⟨owners, h.of_frame (fun _ => rfl) rfl rfl⟩

/-- **The load is open-loop.** In every run, whatever the order of the steps and the speed of the workers, the requests so far are the first arrivals of the arrival process, dealt out one by one: each worker has been given its share of the arrival times in order, and has recorded a prefix of that. -/
theorem open_loop {launched : UInt64} {gap : Nat → UInt64} {e : Epistle UInt32 capacity}
    (hlacks : ∀ w, e.Lacks (S.tid w)) (hblank : e.Blank) {actions : List (Thread S.numWorkers × Signal)}
    (hrun : Runs (OpenStep launched gap) (Experiment.init S e) actions s) :
    ∃ owners : List (Fin S.numWorkers), ∀ w,
      (s.handOff.desk w).polled.map (·.requestGenerated) = (dealt owners w).map (arrivalTime launched gap) ∧
      (s.handOff.desk w).recorded.map (·.requestGenerated) <+: (dealt owners w).map (arrivalTime launched gap) := by
  have hinv := Inv.of_runs hlacks hblank (hrun.mono fun _ _ _ hstep => hstep.1)
  obtain ⟨owners, h⟩ := dealing_of_runs hrun
  refine ⟨owners, fun w => ⟨h.polled w, ?_⟩⟩
  have hprefix := (hinv.recorded_front w).map (·.requestGenerated)
  rw [h.polled w, List.map_map] at hprefix
  exact hprefix

end Experiment

open Experiment

set_option maxRecDepth 8000 in
/-- The one worker has been given the first arrival, and has recorded it. -/
theorem open_loop_first : ∃ owners : List (Fin oneWorker.numWorkers),
    (dealt owners theWorker).map (arrivalTime 7 fun _ => 3) = [7] ∧
    ((afterExit 4).handOff.desk theWorker).recorded.map (·.requestGenerated) <+: [7] := by
  have hlacks : ∀ w, (Epistle.init : Epistle UInt32 4).Lacks (oneWorker.tid w) := fun _ idx hidx => by
    rw [Epistle.occ_init] at hidx
    cases hidx
  obtain ⟨actions, hinput, hrun⟩ := runs_afterExit
  have hopen : Runs (OpenStep 7 fun _ => 3) (Experiment.init oneWorker Epistle.init) actions (afterExit 4) := by
    apply hrun.mono_mem
    intro t action hmem u hstep
    refine ⟨hstep, ?_⟩
    obtain ⟨thread, signal⟩ := action
    rw [hinput _ hmem]
    cases thread with
    | generator => exact ⟨fun _ => rfl, fun _ _ _ => rfl⟩
    | main | worker => trivial
  obtain ⟨owners, hdealt⟩ := open_loop hlacks Epistle.blank_init hopen
  obtain ⟨hpolled, hrecorded⟩ := hdealt theWorker
  have hone : ((afterExit 4).handOff.desk theWorker).polled.map (·.requestGenerated) = [7] := by decide
  have hshare : (dealt owners theWorker).map (arrivalTime 7 fun _ => 3) = [7] := hpolled.symm.trans hone
  rw [hshare] at hrecorded
  exact ⟨owners, hshare, hrecorded⟩

end Workload

end CosUserspace
