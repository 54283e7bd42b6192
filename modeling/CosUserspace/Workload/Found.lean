import CosUserspace.Workload.Delivery
import CosUserspace.Workload.PollRequest

/-!
# What the workers find

Every request that a worker handles was polled by the generator before, so what holds of the polls of a run holds of the requests handled in it: when no poll draws the upper end of its interval, the database finds every request of every worker.
-/

namespace CosUserspace

namespace Workload

variable {capacity : Nat} [NeZero capacity] {S : Setup} {P : Work → Prop} {s s' : HandOff S capacity}

/-- Only the generator writes the list of what was polled. -/
theorem Desk.move_polled (batch : Nat) (key : Int32) (now : UInt64) (e : Epistle UInt32 capacity) (d : Desk capacity) :
    (d.move batch key now e).2.polled = d.polled := by
  have hrequest : ∀ i (f : Request → Desk capacity), (∀ r, (f r).polled = d.polled) →
      (d.withRequest i f).polled = d.polled := by
    intro i f hf
    unfold withRequest
    cases d.requests[i]? with
    | none => rfl
    | some r => exact hf r
  unfold move
  cases d.pc with
  | announce | start | finish | release | failed => rfl
  | register add | retire add | lookup | measure num =>
    dsimp only
    split <;> rfl
  | poll get | confirm get | load =>
    dsimp only
    split
    · rfl
    · split <;> rfl
  | stampStart num i time | stampFinish num i time | handle num i | append num i =>
    exact hrequest i _ fun _ => rfl

/-- The request on its way from its poll into the vector of a worker. -/
def GeneratorPc.pending {n : Nat} : GeneratorPc n capacity → Option Request
  | .assign _ _ request | .push _ _ request => some request
  | _ => none

namespace HandOff

omit [NeZero capacity] in
theorem pending_nextPoll (w : Fin S.numWorkers) (k : Nat) :
    (nextPoll S w k : GeneratorPc S.numWorkers capacity).pending = none := by
  unfold nextPoll
  split <;> rfl

/-- All requests polled so far ask for a work in `P`. -/
structure Polled (P : Work → Prop) (s : HandOff S capacity) : Prop where
  polled : ∀ w, ∀ arrival ∈ (s.desk w).polled, P arrival.work
  pending : ∀ request, s.generator.pending = some request → P request.work

namespace Polled

omit [NeZero capacity] in
theorem of_same (h : Polled P s) (hsame : ∀ w, (s'.desk w).polled = (s.desk w).polled)
    (hpending : ∀ request, s'.generator.pending = some request → P request.work) : Polled P s' where
  polled w arrival hmem := h.polled w arrival (hsame w ▸ hmem)
  pending := hpending

omit [NeZero capacity] in
theorem setDesk_polled {w : Fin S.numWorkers} {d : Desk capacity} (hd : d.polled = (s.desk w).polled)
    (v : Fin S.numWorkers) :
    ((s.setDesk w d).desk v).polled = (s.desk v).polled := by
  show (Function.update s.desk w d v).polled = _
  by_cases hv : v = w
  · rw [hv, Function.update_self, hd]
  · rw [Function.update_of_ne hv]

omit [NeZero capacity] in
theorem moveMain (h : Polled P s) : Polled P s.moveMain := by
  unfold HandOff.moveMain
  split
  · split
    · split
      · exact ⟨h.polled, h.pending⟩
      · exact h
    · exact ⟨h.polled, h.pending⟩
  · split
    · exact h.of_same (setDesk_polled rfl) h.pending
    · exact h
  · exact ⟨h.polled, h.pending⟩
  · exact h

theorem moveWorker (h : Polled P s) (w : Fin S.numWorkers) (now : UInt64) : Polled P (s.moveWorker w now) := by
  refine h.of_same ?_ h.pending
  exact setDesk_polled (Desk.move_polled ..)

omit [NeZero capacity] in
theorem push (h : Polled P s) {w : Fin S.numWorkers} {requests : List Request} {request : Request}
    {g : GeneratorPc S.numWorkers capacity} (hrequest : P request.work) (hquiet : g.pending = none) :
    Polled P ((s.setDesk w { (s.desk w).setRequests requests with
      polled := ((s.desk w).setRequests requests).polled ++ [request.toArrival] }).goto g) where
  polled v arrival hmem := by
    have hmem' : arrival ∈ (Function.update s.desk w { (s.desk w).setRequests requests with
      polled := (s.desk w).polled ++ [request.toArrival] } v).polled := hmem
    by_cases hv : v = w
    · subst hv
      rw [Function.update_self] at hmem'
      rcases List.mem_append.mp hmem' with hbefore | hnew
      · exact h.polled v arrival hbefore
      · rw [List.mem_singleton.mp hnew]
        exact hrequest
    · rw [Function.update_of_ne hv] at hmem'
      exact h.polled v arrival hmem'
  pending request' hsome := by
    have hnone : g.pending = some request' := hsome
    simp [hquiet] at hnone

theorem moveGenerator (h : Polled P s) {input : Input} (hinput : P input.request.work) :
    Polled P (s.moveGenerator input) := by
  -- an access after which no request is on its way, and no list is longer
  have hquiet : ∀ {t : HandOff S capacity}, (∀ v, (t.desk v).polled = (s.desk v).polled) → t.generator.pending = none →
      Polled P t := by
    intro t hsame hnone
    exact h.of_same hsame fun request hsome => by simp [hnone] at hsome
  have hfailed : Polled P (s.goto .failed) := hquiet (fun _ => rfl) rfl
  unfold HandOff.moveGenerator
  cases hpc : s.generator with
  | wait =>
    dsimp only
    split
    · exact hquiet (fun _ => rfl) rfl
    · exact h
  | launch => exact hquiet (fun _ => rfl) rfl
  | stopped w | failed => exact h
  | enter i | hand w add =>
    dsimp only
    split <;> exact hquiet (fun _ => rfl) rfl
  | look w get | confirm w get =>
    dsimp only
    split
    · exact hquiet (fun _ => rfl) rfl
    · split <;> exact hquiet (fun _ => rfl) rfl
  | expectZero w | testEmpty w | bound w =>
    apply withWork_of hfailed
    intro work
    split <;> exact hquiet (fun _ => rfl) rfl
  | measure w =>
    apply withWork_of hfailed
    intro work
    exact hquiet (fun _ => rfl) rfl
  | clear w =>
    apply withWork_of hfailed
    intro work
    exact hquiet (setDesk_polled rfl) (pending_nextPoll w 0)
  | store w num =>
    apply withWork_of hfailed
    intro work
    exact hquiet (setDesk_polled rfl) rfl
  | arrive w k =>
    dsimp only
    split
    · exact hquiet (fun _ => rfl) rfl
    · split <;> exact hquiet (fun _ => rfl) rfl
  | receive w k arrival =>
    refine h.of_same (fun _ => rfl) fun request hsome => ?_
    obtain rfl := Option.some.inj hsome
    exact hinput
  | assign w k request =>
    have hwork : P request.work := h.pending request (by rw [hpc]; rfl)
    refine h.of_same (fun _ => rfl) fun request' hsome => ?_
    obtain rfl := Option.some.inj hsome
    exact hwork
  | push w k request =>
    apply withWork_of hfailed
    intro work
    exact h.push (h.pending request (by rw [hpc]; rfl)) (pending_nextPoll w (k + 1))

/-- A step keeps it, if the request that it may poll asks for a work in `P`. -/
theorem step (h : Polled P s) {thread : Thread S.numWorkers} {input : Input} (hinput : P input.request.work)
    (hstep : Step s (thread, input) s') : Polled P s' := by
  obtain ⟨-, rfl⟩ := hstep
  have hticked : Polled P { s with clock := input.now } := ⟨h.polled, h.pending⟩
  cases thread with
  | main => exact hticked.moveMain
  | generator => exact hticked.moveGenerator hinput
  | worker w => exact hticked.moveWorker w input.now

end Polled

/-- A step of the workload; what it reads of a request is what a poll that `admits` allows makes of it. -/
def PolledStep (admits : Poll → Prop) (s : HandOff S capacity) (action : Thread S.numWorkers × Input)
    (s' : HandOff S capacity) : Prop :=
  Step s action s' ∧ ∃ p : Poll, p.Allowed ∧ admits p ∧ action.2.request.work = p.work

theorem polled_of_runs {admits : Poll → Prop} {e : Epistle UInt32 capacity}
    {actions : List (Thread S.numWorkers × Input)} (hrun : Runs (PolledStep admits) (HandOff.init S e) actions s) :
    Polled (fun work => ∃ p : Poll, p.Allowed ∧ admits p ∧ work = p.work) s := by
  have hstart : Polled (fun work => ∃ p : Poll, p.Allowed ∧ admits p ∧ work = p.work) (HandOff.init S e) :=
    ⟨fun _ _ hmem => absurd hmem List.not_mem_nil, fun _ hsome => by cases hsome⟩
  apply hrun.invariant hstart
  intro t action u h hstep
  obtain ⟨hstep, hpoll⟩ := hstep
  exact h.step hpoll hstep

end HandOff

omit [NeZero capacity] in
theorem Desk.Log.handled_polled {stage : Stage} {d : Desk capacity} (hlog : d.Log stage) : d.handled ⊆ d.polled := by
  obtain ⟨past, hpolled, hhandled, -⟩ := hlog
  rw [hpolled, hhandled]
  exact List.append_subset.mpr ⟨List.subset_append_left .., fun _ hmem =>
    List.mem_append_right _ (List.mem_of_mem_take hmem)⟩

/-- **The workers find what they look for**, in any order of their steps, as long as no poll draws the upper end of its interval. -/
theorem handled_requests_found {K : KeyValueStore Bytes Bytes} {R : K.OrderedMap} {db db' : K.Db}
    (hempty : ∀ k, R.contents db k = none) (hfill : Database.fill K db = .ok (true, db'))
    {e : Epistle UInt32 capacity} (hlacks : ∀ w, e.Lacks (S.tid w)) (hblank : e.Blank)
    {actions : List (Thread S.numWorkers × Input)}
    (hrun : Runs (HandOff.PolledStep fun p => p.draw ≠ p.upper) (HandOff.init S e) actions s)
    {w : Fin S.numWorkers} {request : Request} (hhandled : request.toArrival ∈ (s.desk w).handled) :
    request.work.Exists ∧ handleRequest K request db' = .ok true := by
  have hinv := Inv.of_runs hlacks hblank (hrun.mono fun _ _ _ hstep => hstep.1)
  have hpolled := ((hinv.desks w).log.handled_polled hhandled :)
  obtain ⟨p, hallowed, hdraw, hwork⟩ := (HandOff.polled_of_runs hrun).polled w _ hpolled
  have hexists : request.work.Exists := hwork ▸ (Poll.work_exists_iff hallowed).mpr hdraw
  exact ⟨hexists, handleRequest_exists (Database.fill_filled hempty hfill) hexists⟩

end Workload

end CosUserspace
