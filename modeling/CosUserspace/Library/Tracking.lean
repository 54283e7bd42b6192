import Mathlib.Data.List.Basic
import Mathlib.Data.List.Nodup
import Mathlib.Data.List.Perm.Basic
import Mathlib.Logic.Function.Basic

/-!
# A queue that tracks a status

A table gives every key a status, or none when it has no entry, and a queue lists without repetition exactly the keys of one status `w`. `requeue` is the only thing a queue has to do when the status of one key changes: append the key when it enters `w`, take it out when it leaves `w`.
-/

namespace CosUserspace

variable {κ ς : Type*}

/-- The queue lists, without repetition, exactly the keys with status `w`. -/
structure Tracks (queue : List κ) (status : κ → Option ς) (w : ς) : Prop where
  nodup : queue.Nodup
  mem_iff : ∀ k, k ∈ queue ↔ status k = some w

/-- The queue after the status of `k` goes from `old` to `new`. -/
def requeue [DecidableEq κ] [DecidableEq ς] (w : ς) (queue : List κ) (k : κ) (old new : Option ς) :
    List κ :=
  if new = some w then
    if old = some w then queue else queue ++ [k]
  else
    if old = some w then queue.erase k else queue

namespace Tracks

variable {queue : List κ} {status : κ → Option ς} {w : ς}

theorem empty (hnone : ∀ k, status k ≠ some w) : Tracks [] status w :=
  ⟨List.nodup_nil, fun k => by simpa using hnone k⟩

theorem congr {status' : κ → Option ς} (htracks : Tracks queue status w)
    (hsame : ∀ k, status' k = some w ↔ status k = some w) : Tracks queue status' w :=
  ⟨htracks.nodup, fun k => (htracks.mem_iff k).trans (hsame k).symm⟩

/-- Several keys enter `w` at once, in the order of a list. -/
theorem append {status' : κ → Option ς} {ks : List κ} (htracks : Tracks queue status w)
    (hnodup : ks.Nodup) (hout : ∀ k ∈ ks, status k ≠ some w)
    (hstatus : ∀ k, status' k = some w ↔ k ∈ ks ∨ status k = some w) :
    Tracks (queue ++ ks) status' w := by
  refine ⟨List.Nodup.append htracks.nodup hnodup ?_, fun k => ?_⟩
  · intro k hqueue hks
    exact hout k hks ((htracks.mem_iff k).mp hqueue)
  · rw [List.mem_append, htracks.mem_iff, hstatus, or_comm]

/-- Several keys leave `w` at once: the queue was, up to order, these keys and the rest. -/
theorem remove {status' : κ → Option ς} {rest : List κ} (htracks : Tracks queue status w) (ks : List κ)
    (hperm : queue.Perm (ks ++ rest)) (hstatus : ∀ k, status' k = some w ↔ k ∉ ks ∧ status k = some w) :
    Tracks rest status' w := by
  have hnodup := hperm.nodup_iff.mp htracks.nodup
  refine ⟨(List.nodup_append.mp hnodup).2.1, fun k => ?_⟩
  rw [hstatus, ← htracks.mem_iff, hperm.mem_iff, List.mem_append]
  constructor
  · intro hrest
    exact ⟨fun hks => (List.nodup_append.mp hnodup).2.2 k hks k hrest rfl, .inr hrest⟩
  · rintro ⟨hks, hmem⟩
    exact hmem.resolve_left hks

variable [DecidableEq κ] [DecidableEq ς]

theorem requeue (htracks : Tracks queue status w) (k : κ) (new : Option ς) :
    Tracks (requeue w queue k (status k) new) (Function.update status k new) w := by
  have hstatus : ∀ j, Function.update status k new j = some w ↔
      (j = k ∧ new = some w) ∨ (j ≠ k ∧ status j = some w) := by
    intro j
    by_cases hj : j = k <;> simp [hj]
  unfold CosUserspace.requeue
  split_ifs with hnew hold hold
  · apply htracks.congr
    intro j
    rw [hstatus]
    grind
  · apply htracks.append (List.nodup_singleton k) (by simpa using hold)
    intro j
    rw [hstatus, List.mem_singleton]
    grind
  · have hmem : k ∈ queue := (htracks.mem_iff k).mpr hold
    apply htracks.remove [k] (List.perm_cons_erase hmem)
    intro j
    rw [hstatus, List.mem_singleton]
    grind
  · apply htracks.congr
    intro j
    rw [hstatus]
    grind

end Tracks

end CosUserspace
