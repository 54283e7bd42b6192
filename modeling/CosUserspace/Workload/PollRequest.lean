import CosUserspace.Workload.Database
import CosUserspace.Workload.HandOff

/-!
# The requests of the load generator

`NetWork::PollRequest` of `workload/rocksdb.cpp` and the handlers of its requests. A poll draws an entry from a closed interval, and the upper end of the interval is one too many: a get may ask for the entry `kNumEntries`, and a range may end behind it. The database answers such a request with false, which the handlers drop.
-/

namespace CosUserspace

namespace Workload

open Database

/-- The size of range queries. -/
def kRangeQuerySize : UInt32 := 5000

/-- The asserts of a poll. -/
inductive PollStop
  /-- `assert(is_start_)` -/
  | isStart
  /-- `assert(start_ > 0)` -/
  | start
  deriving DecidableEq, Repr

/-- What one poll reads from outside: the clock in `HasNewArrival`, the time to the next arrival, the clock again, and what `bernoulli(gen_)` and `uniform(gen_)` return. -/
structure Poll where
  now : UInt64
  gap : UInt64
  received : UInt64
  get : Bool
  draw : Int32
  deriving DecidableEq, Repr

namespace Poll

/-- The upper end of the interval that `uniform` draws from; the lower end is zero. -/
def upper (p : Poll) : Int32 :=
  if p.get then kNumEntries.toInt32 else (kNumEntries - kRangeQuerySize + 1).toInt32

/-- `uniform(gen_)` returns an integer of the closed interval. -/
def Allowed (p : Poll) : Prop := 0 ≤ p.draw ∧ p.draw ≤ p.upper

instance (p : Poll) : Decidable p.Allowed := inferInstanceAs (Decidable (_ ∧ _))

def work (p : Poll) : Work := if p.get then .get p.draw.toUInt32 else .range p.draw.toUInt32 kRangeQuerySize

end Poll

structure Ingress where
  start : UInt64

structure NetWork where
  ingress : Ingress
  isStart : Bool

/-- `HasNewArrival`; `none` is the pair with `false`. -/
def Ingress.hasNewArrival (p : Poll) (g : Ingress) : Except PollStop (Option UInt64 × Ingress) :=
  if g.start = 0 then .error .start
  else if g.start ≤ p.now then .ok (some g.start, { start := g.start + p.gap })
  else .ok (none, g)

namespace NetWork

/-- `Start`, at the time `now`. -/
def start (now : UInt64) (_ : NetWork) : NetWork where
  ingress := { start := now }
  isStart := true

def pollRequest (p : Poll) (request : Request) (n : NetWork) : Except PollStop (Bool × Request × NetWork) :=
  if n.isStart then do
    match ← n.ingress.hasNewArrival p with
    | (none, ingress) => .ok (false, request, { n with ingress })
    | (some arrival, ingress) =>
      .ok (true, { request with work := p.work, requestGenerated := arrival, requestReceived := p.received },
        { n with ingress })
  else .error .isStart

/-- Polls one after the other, each with the `Request` that it is to fill in: the requests that are generated, each with its poll. -/
def generate : List (Poll × Request) → NetWork → Except PollStop (List (Poll × Request))
  | [], _ => .ok []
  | (p, request) :: polls, n => do
    let (arrived, request, n) ← n.pollRequest p request
    let generated ← generate polls n
    .ok (if arrived then (p, request) :: generated else generated)

end NetWork

/-! ### Handlers

The handlers drop what the database answers; here they return it. -/

section Handlers

variable (S : KeyValueStore Bytes Bytes)

def handleGet (request : Request) (db : S.Db) : Except RequestStop Bool :=
  match request.work with
  | .get entry => get S entry db
  | .range _ _ => .error .isGet

def handleRange (request : Request) (db : S.Db) : Except RequestStop Bool :=
  match request.work with
  | .range startEntry size => rangeQuery S startEntry size db
  | .get _ => .error .isRange

def handleRequest (request : Request) (db : S.Db) : Except RequestStop Bool :=
  match request.work with
  | .get _ => handleGet S request db
  | .range _ _ => handleRange S request db

end Handlers

/-- The entries that the work accesses are in the database. -/
def Work.Exists : Work → Prop
  | .get entry => entry < kNumEntries
  | .range startEntry size => startEntry.toNat + size.toNat ≤ kNumEntries.toNat

/-! ### Draws -/

/-- The entry that is drawn exceeds the last possible one only at the upper end. -/
theorem Poll.work_exists_iff {p : Poll} (hallowed : p.Allowed) : p.work.Exists ↔ p.draw ≠ p.upper := by
  obtain ⟨hnonneg, hle⟩ := hallowed
  have hbound : p.draw.toUInt32.toNat ≤ p.upper.toUInt32.toNat := Int32.toUInt32_le hnonneg hle
  have hend : p.draw ≠ p.upper ↔ p.draw.toUInt32.toNat ≠ p.upper.toUInt32.toNat := by
    rw [ne_eq, ne_eq, UInt32.toNat_inj]
    exact not_congr ⟨congrArg Int32.toUInt32, fun heq => congrArg UInt32.toInt32 heq⟩
  rw [hend]
  cases hget : p.get with
  | true =>
    have hupper : p.upper.toUInt32.toNat = 1000000 := by simp only [upper, hget, if_true]; rfl
    have hnum : kNumEntries.toNat = 1000000 := rfl
    simp only [work, hget, if_true, Work.Exists, UInt32.lt_iff_toNat_lt]
    omega
  | false =>
    have hupper : p.upper.toUInt32.toNat = 995001 := by simp only [upper, hget]; rfl
    have hnum : kNumEntries.toNat = 1000000 := rfl
    have hsize : kRangeQuerySize.toNat = 5000 := rfl
    simp only [work, hget, Bool.false_eq_true, if_false, Work.Exists]
    omega

theorem NetWork.pollRequest_work {p : Poll} {request request' : Request} {n n' : NetWork}
    (hok : n.pollRequest p request = .ok (true, request', n')) : request'.work = p.work := by
  unfold pollRequest at hok
  split at hok
  · cases harrival : n.ingress.hasNewArrival p with
    | error stop => simp [harrival, bind, Except.bind] at hok
    | ok answer =>
      obtain ⟨arrival, ingress⟩ := answer
      cases arrival with
      | none => simp [harrival, bind, Except.bind] at hok
      | some arrival =>
        simp only [harrival, bind, Except.bind, Except.ok.injEq, Prod.mk.injEq, true_and] at hok
        obtain ⟨rfl, -⟩ := hok
        rfl
  · cases hok

theorem NetWork.generate_work {polls : List (Poll × Request)} {n : NetWork} {generated : List (Poll × Request)}
    (hok : n.generate polls = .ok generated) :
    ∀ entry ∈ generated, entry.1 ∈ polls.map Prod.fst ∧ entry.2.work = entry.1.work := by
  induction polls generalizing n generated with
  | nil =>
    obtain rfl := Except.ok.inj hok
    simp
  | cons poll polls ih =>
    obtain ⟨p, request⟩ := poll
    simp only [generate, bind, Except.bind] at hok
    cases hpoll : n.pollRequest p request with
    | error stop => simp [hpoll] at hok
    | ok polled =>
      obtain ⟨arrived, request', n'⟩ := polled
      simp only [hpoll] at hok
      cases hrest : n'.generate polls with
      | error stop => simp [hrest] at hok
      | ok rest =>
        simp only [hrest, Except.ok.injEq] at hok
        subst hok
        have hothers : ∀ entry ∈ rest, entry.1 ∈ p :: polls.map Prod.fst ∧ entry.2.work = entry.1.work := by
          intro entry hmem
          obtain ⟨hpolls, hwork⟩ := ih hrest entry hmem
          exact ⟨List.mem_cons_of_mem _ hpolls, hwork⟩
        split
        · rename_i harrived
          subst harrived
          apply List.forall_mem_cons.mpr ⟨_, hothers⟩
          exact ⟨List.mem_cons_self, pollRequest_work hpoll⟩
        · exact hothers

section Found

variable {S : KeyValueStore Bytes Bytes} {R : S.OrderedMap} {db db' : S.Db}

/-- A filled database answers true to a request for entries that exist. -/
theorem handleRequest_exists (hfilled : Filled R kNumEntries.toNat db) {request : Request}
    (hexists : request.work.Exists) : handleRequest S request db = .ok true := by
  have hn : kNumEntries.toNat ≤ 2 ^ 32 := by decide
  cases hwork : request.work with
  | get entry =>
    have hlt : entry.toNat < kNumEntries.toNat := by
      rw [hwork] at hexists
      exact hexists
    simp only [handleRequest, handleGet, hwork, get_eq hfilled hn, decide_eq_true hlt]
  | range startEntry size =>
    have hle : startEntry.toNat + size.toNat ≤ kNumEntries.toNat := by
      rw [hwork] at hexists
      exact hexists
    simp only [handleRequest, handleRange, hwork, rangeQuery_eq hfilled hn, decide_eq_true (Or.inr hle)]

/-- **Exactly the draws below the upper end of their interval are found.** -/
theorem requests_found_iff (hempty : ∀ k, R.contents db k = none) (hfill : fill S db = .ok (true, db'))
    {polls : List (Poll × Request)} (hallowed : ∀ p ∈ polls.map Prod.fst, p.Allowed) {n : NetWork}
    {generated : List (Poll × Request)} (hgenerate : n.generate polls = .ok generated) :
    (∀ entry ∈ generated, entry.2.work.Exists ∧ handleRequest S entry.2 db' = .ok true) ↔
      ∀ entry ∈ generated, entry.1.draw ≠ entry.1.upper := by
  have hfilled := fill_filled hempty hfill
  apply forall₂_congr
  intro entry hmem
  obtain ⟨hpoll, hwork⟩ := NetWork.generate_work hgenerate entry hmem
  rw [← Poll.work_exists_iff (hallowed entry.1 hpoll), ← hwork]
  exact and_iff_left_of_imp (handleRequest_exists hfilled)

end Found

def started : NetWork := NetWork.start 1 ⟨⟨0⟩, false⟩

def blank : Request := ⟨⟨0, 0, 0, .get 0⟩, 0, 0⟩

/-- A poll that draws `draw`, and the request that it generates when its arrival time is `arrival`. -/
def drawn (get : Bool) (draw : Int32) : Poll := ⟨10, 5, 20, get, draw⟩

def drawnRequest (get : Bool) (draw : Int32) (arrival : UInt64) : Request :=
  { blank with work := (drawn get draw).work, requestGenerated := arrival, requestReceived := 20 }

theorem requests_found_iff_last : ∃ db', fill (journal Bytes Bytes) [] = .ok (true, db') ∧
    ∀ entry ∈ [(drawn true 999999, drawnRequest true 999999 1), (drawn false 995000, drawnRequest false 995000 6)],
      entry.2.work.Exists ∧ handleRequest (journal Bytes Bytes) entry.2 db' = .ok true := by
  obtain ⟨db', hfill⟩ := fill_journal
  have hempty : ∀ k, (journalMap Bytes Bytes).contents [] k = none := fun _ => rfl
  have hgenerate : started.generate [(drawn true 999999, blank), (drawn false 995000, blank)] = .ok _ := rfl
  exact ⟨db', hfill, (requests_found_iff hempty hfill (by decide) hgenerate).mpr (by decide)⟩

/-- At the upper ends both kinds of request are missed. -/
theorem upper_ends_missed : ∃ db', fill (journal Bytes Bytes) [] = .ok (true, db') ∧
    (∀ p ∈ [drawn true 1000000, drawn false 995001], p.Allowed) ∧
    started.generate [(drawn true 1000000, blank), (drawn false 995001, blank)] =
      .ok [(drawn true 1000000, drawnRequest true 1000000 1), (drawn false 995001, drawnRequest false 995001 6)] ∧
    ∀ entry ∈ [(drawn true 1000000, drawnRequest true 1000000 1), (drawn false 995001, drawnRequest false 995001 6)],
      ¬ entry.2.work.Exists ∧ handleRequest (journal Bytes Bytes) entry.2 db' = .ok false := by
  obtain ⟨db', hfill⟩ := fill_journal
  have hempty : ∀ k, (journalMap Bytes Bytes).contents [] k = none := fun _ => rfl
  have hfilled := fill_filled hempty hfill
  have hn : kNumEntries.toNat ≤ 2 ^ 32 := by decide
  have hget : ¬ (1000000 : UInt32).toNat < kNumEntries.toNat := by decide
  have hrange : ¬ (kRangeQuerySize.toNat = 0 ∨ (995001 : UInt32).toNat + kRangeQuerySize.toNat ≤ kNumEntries.toNat) := by
    decide
  refine ⟨db', hfill, by decide, rfl, List.forall_mem_cons.mpr ⟨⟨hget, ?_⟩, List.forall_mem_singleton.mpr ⟨?_, ?_⟩⟩⟩
  · exact (get_eq hfilled hn 1000000).trans (congrArg _ (decide_eq_false hget))
  · exact fun hle => hrange (.inr hle)
  · exact (rangeQuery_eq hfilled hn 995001 kRangeQuerySize).trans (congrArg _ (decide_eq_false hrange))

end Workload

end CosUserspace
