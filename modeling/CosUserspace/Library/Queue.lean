import Mathlib.Data.List.Nodup
import Mathlib.Data.List.Perm.Subperm
import Mathlib.Tactic.Common

/-!
# Queues

In a queue without repetition `a` stands ahead of `b` when `[a, b]` is a sublist of it; a queue that only loses members keeps this order, and two members never stand ahead of each other.

A queue is walked from its head. An active member takes the next of a list of servers, any other member is passed over, and the walk ends at the first active member for which no server is left. The active members are then served in their order by the servers in theirs, and the walk ends where the queue has its first active member left unserved.
-/

namespace CosUserspace

variable {α β : Type*}

/-! ### Order -/

section Order

variable [DecidableEq α] {queue queue' : List α} {a b : α}

theorem idxOf_lt_of_ahead (hnodup : queue.Nodup) (hahead : [a, b].Sublist queue) :
    queue.idxOf a < queue.idxOf b := by
  obtain ⟨front, back, rfl, ha, hb⟩ := List.cons_sublist_iff.mp hahead
  have hback : b ∈ back := List.singleton_sublist.mp hb
  have hfront : b ∉ front := fun hmem => (List.nodup_append.mp hnodup).2.2 b hmem b hback rfl
  rw [List.idxOf_append_of_mem ha, List.idxOf_append_of_notMem hfront]
  have hlt := List.idxOf_lt_length_of_mem ha
  omega

theorem not_ahead_of_ahead (hnodup : queue.Nodup) (hahead : [a, b].Sublist queue) : ¬ [b, a].Sublist queue := by
  intro hback
  have hlt := idxOf_lt_of_ahead hnodup hahead
  have hgt := idxOf_lt_of_ahead hnodup hback
  omega

/-- Members that stay keep their order when others leave. -/
theorem ahead_of_sublist (hnodup : queue.Nodup) (hsub : queue'.Sublist queue) (hahead : [a, b].Sublist queue)
    (ha : a ∈ queue') (hb : b ∈ queue') : [a, b].Sublist queue' := by
  have hstay : queue.filter (· ∈ queue') = queue' := by
    have hself : queue'.filter (· ∈ queue') = queue' := List.filter_eq_self.mpr fun c hc => by simpa using hc
    have hle := hsub.filter (· ∈ queue')
    rw [hself] at hle
    have hsubset : queue.filter (· ∈ queue') ⊆ queue' := fun c hc => by simpa using (List.mem_filter.mp hc).2
    exact (hle.eq_of_length_le (List.Nodup.subperm (hnodup.filter _) hsubset).length_le).symm
  have hkept := hahead.filter (· ∈ queue')
  rw [hstay] at hkept
  simpa [ha, hb] using hkept

end Order

/-! ### Walks -/

/-- What a walk over a queue leaves: the servers with the members they serve, the queue it did not get to, and the members it passed over. -/
@[ext] structure Drained (α β : Type*) where
  served : List (β × α)
  rest : List α
  passed : List α

def drain (active : α → Bool) : List α → List β → Drained α β
  | [], _ => ⟨[], [], []⟩
  | a :: queue, [] => if active a then ⟨[], a :: queue, []⟩ else
      let d := drain active queue []
      { d with passed := a :: d.passed }
  | a :: queue, b :: servers =>
    if active a then
      let d := drain active queue servers
      { d with served := (b, a) :: d.served }
    else
      let d := drain active queue (b :: servers)
      { d with passed := a :: d.passed }

section Steps

variable {active : α → Bool} {a : α}

theorem drain_cons_passed (hactive : active a = false) (queue : List α) (servers : List β) :
    drain active (a :: queue) servers =
      { drain active queue servers with passed := a :: (drain active queue servers).passed } := by
  cases servers <;> simp [drain, hactive]

theorem drain_cons_served (hactive : active a = true) (queue : List α) (b : β) (servers : List β) :
    drain active (a :: queue) (b :: servers) =
      { drain active queue servers with served := (b, a) :: (drain active queue servers).served } :=
  if_pos hactive

theorem drain_cons_nil (hactive : active a = true) (queue : List α) :
    drain active (a :: queue) ([] : List β) = ⟨[], a :: queue, []⟩ :=
  if_pos hactive

end Steps

section Unserved

variable [DecidableEq α] (active : α → Bool) (n : Nat) (queue : List α)

/-- The queue before its first active member that `n` servers leave unserved. -/
def ahead : List α :=
  match (queue.filter active)[n]? with
  | none => queue
  | some a => queue.takeWhile (· ≠ a)

/-- The queue from its first active member on that `n` servers leave unserved. -/
def behind : List α :=
  match (queue.filter active)[n]? with
  | none => []
  | some a => queue.dropWhile (· ≠ a)

variable {active n queue} {a : α}

theorem ahead_append_behind : ahead active n queue ++ behind active n queue = queue := by
  unfold ahead behind
  cases (queue.filter active)[n]? with
  | none => exact List.append_nil _
  | some a => exact List.takeWhile_append_dropWhile

theorem mem_of_mem_ahead (hmem : a ∈ ahead active n queue) : a ∈ queue := by
  have hqueue : ahead active n queue ++ behind active n queue = queue := ahead_append_behind
  rw [← hqueue]
  exact List.mem_append_left _ hmem

theorem ahead_cons_zero (hactive : active a) : ahead active 0 (a :: queue) = [] := by
  simp [ahead, hactive]

theorem behind_cons_zero (hactive : active a) : behind active 0 (a :: queue) = a :: queue := by
  simp [behind, hactive]

/-- A member that is served or passed over is ahead of the unserved ones, wherever the walk goes on. -/
theorem ahead_behind_cons {m : Nat} (hnew : a ∉ queue)
    (hnext : ((a :: queue).filter active)[m]? = (queue.filter active)[n]?) :
    ahead active m (a :: queue) = a :: ahead active n queue ∧
      behind active m (a :: queue) = behind active n queue := by
  unfold ahead behind
  rw [hnext]
  cases hfirst : (queue.filter active)[n]? with
  | none => exact ⟨rfl, rfl⟩
  | some x =>
    have hmem : x ∈ queue := List.mem_of_mem_filter (List.mem_of_getElem? hfirst)
    have hne : a ≠ x := fun heq => hnew (heq ▸ hmem)
    simp [hne]

end Unserved

variable [DecidableEq α] {active : α → Bool}

/-- **What a walk serves, leaves and passes over.** -/
theorem drain_eq {queue : List α} (hnodup : queue.Nodup) (servers : List β) :
    drain active queue servers =
      ⟨servers.zip (queue.filter active), behind active servers.length queue,
        (ahead active servers.length queue).filter (! active ·)⟩ := by
  induction queue generalizing servers with
  | nil => simp [drain, ahead, behind]
  | cons a queue ih =>
    obtain ⟨hnew, hnodup⟩ := List.nodup_cons.mp hnodup
    cases hactive : active a with
    | true =>
      cases servers with
      | nil =>
        rw [drain_cons_nil hactive]
        ext1
        · simp
        · exact (behind_cons_zero hactive).symm
        · simp [ahead_cons_zero hactive]
      | cons b servers =>
        have hnext : ((a :: queue).filter active)[(b :: servers).length]? = (queue.filter active)[servers.length]? := by
          simp [hactive]
        obtain ⟨hahead, hbehind⟩ := ahead_behind_cons hnew hnext
        rw [drain_cons_served hactive, hahead, hbehind, ih hnodup]
        simp [hactive]
    | false =>
      have hnext : ((a :: queue).filter active)[servers.length]? = (queue.filter active)[servers.length]? := by
        simp [hactive]
      obtain ⟨hahead, hbehind⟩ := ahead_behind_cons hnew hnext
      rw [drain_cons_passed hactive, hahead, hbehind, ih hnodup]
      simp [hactive]

end CosUserspace
