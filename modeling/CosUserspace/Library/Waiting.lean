import CosUserspace.Library.Queue
import CosUserspace.Library.Runs

/-!
# Waiting in a queue

Members join a queue at its end and may leave it, and walks serve it: each walk has a number of servers for the first active members and passes the others back to the end. A member that stays active and does not leave is overtaken by nobody: those served before it stood ahead of it when it was first seen, and every walk that finds a server brings it forward.
-/

namespace CosUserspace

variable {α : Type*} [DecidableEq α]

/-- Members of a queue stand no further back when others leave. -/
theorem idxOf_le_of_sublist {queue queue' : List α} (hnodup : queue.Nodup) (hsub : queue'.Sublist queue) {a : α}
    (hmem : a ∈ queue') : queue'.idxOf a ≤ queue.idxOf a := by
  induction hsub with
  | slnil => cases hmem
  | cons b hsub ih =>
    obtain ⟨hnew, hnodup⟩ := List.nodup_cons.mp hnodup
    have hne : b ≠ a := fun heq => hnew (heq ▸ hsub.subset hmem)
    rw [List.idxOf_cons_ne _ hne]
    exact Nat.le_succ_of_le (ih hnodup hmem)
  | cons_cons b hsub ih =>
    by_cases hb : b = a
    · simp [hb]
    · rw [List.idxOf_cons_ne _ hb, List.idxOf_cons_ne _ hb]
      have hrest : a ∈ _ := (List.mem_cons.mp hmem).resolve_left fun heq => hb heq.symm
      exact Nat.succ_le_succ (ih (List.nodup_cons.mp hnodup).2 hrest)

omit [DecidableEq α] in
/-- As many members are served as there are servers, if there are as many. -/
theorem zip_map_snd {β : Type*} (servers : List β) (queue : List α) :
    (servers.zip queue).map Prod.snd = queue.take servers.length := by
  induction servers generalizing queue with
  | nil => simp
  | cons b servers ih =>
    cases queue with
    | nil => simp
    | cons a queue => simp [ih]

section Walk

variable {active : α → Bool} {n : Nat} {queue : List α} {a : α}

/-- The active members ahead of the unserved ones are those that are served. -/
theorem filter_ahead (hnodup : queue.Nodup) (n : Nat) :
    (ahead active n queue).filter active = (queue.filter active).take n := by
  induction queue generalizing n with
  | nil => simp [ahead]
  | cons b queue ih =>
    obtain ⟨hnew, hnodup⟩ := List.nodup_cons.mp hnodup
    cases hactive : active b with
    | true =>
      cases n with
      | zero => simp [ahead_cons_zero hactive]
      | succ n =>
        have hnext : ((b :: queue).filter active)[n + 1]? = (queue.filter active)[n]? := by simp [hactive]
        rw [(ahead_behind_cons hnew hnext).1]
        simp [hactive, ih hnodup]
    | false =>
      have hnext : ((b :: queue).filter active)[n]? = (queue.filter active)[n]? := by simp [hactive]
      rw [(ahead_behind_cons hnew hnext).1]
      simp [hactive, ih hnodup]

theorem mem_behind (hnodup : queue.Nodup) (hmem : a ∈ queue) (hactive : active a = true)
    (hleft : a ∉ (queue.filter active).take n) : a ∈ behind active n queue := by
  have hsplit : ahead active n queue ++ behind active n queue = queue := ahead_append_behind
  rw [← hsplit, List.mem_append] at hmem
  refine hmem.resolve_left fun hahead => hleft ?_
  rw [← filter_ahead hnodup]
  exact List.mem_filter.mpr ⟨hahead, hactive⟩

theorem not_mem_ahead (hnodup : queue.Nodup) (hmem : a ∈ queue) (hactive : active a = true)
    (hleft : a ∉ (queue.filter active).take n) : a ∉ ahead active n queue := by
  have hbehind := mem_behind hnodup hmem hactive hleft
  have hsplit : ahead active n queue ++ behind active n queue = queue := ahead_append_behind
  rw [← hsplit] at hnodup
  exact fun hahead => (List.nodup_append.mp hnodup).2.2 a hahead a hbehind rfl

omit [DecidableEq α] in
/-- When an active member is left unserved, every server has served somebody. -/
theorem length_served (hmem : a ∈ queue) (hactive : active a = true) (hleft : a ∉ (queue.filter active).take n) :
    ((queue.filter active).take n).length = n := by
  rw [List.length_take, Nat.min_eq_left]
  by_contra hshort
  rw [List.take_of_length_le (by omega)] at hleft
  exact hleft (List.mem_filter.mpr ⟨hmem, hactive⟩)

/-- A member that is left unserved has every server ahead of it. -/
theorem le_length_ahead (hnodup : queue.Nodup) (hmem : a ∈ queue) (hactive : active a = true)
    (hleft : a ∉ (queue.filter active).take n) : n ≤ (ahead active n queue).length :=
  calc n = ((queue.filter active).take n).length := (length_served hmem hactive hleft).symm
    _ = ((ahead active n queue).filter active).length := by rw [filter_ahead hnodup]
    _ ≤ (ahead active n queue).length := List.length_filter_le ..

end Walk

/-- A queue, the members it has served, and how many of its walks found a server. -/
structure Service (α : Type*) where
  queue : List α
  log : List α
  walks : Nat

namespace Service

inductive Event (α : Type*)
  | join (a : α)
  | leave (a : α)
  | walk (active : α → Bool) (servers : Nat)

inductive Step (s : Service α) : Event α → Service α → Prop
  | join {b : α} (hnew : b ∉ s.queue) : Step s (.join b) { s with queue := s.queue ++ [b] }
  | leave {b : α} : Step s (.leave b) { s with queue := s.queue.erase b }
  | walk {active : α → Bool} {n : Nat} :
      Step s (.walk active n)
        { queue := behind active n s.queue ++ (ahead active n s.queue).filter (! active ·)
          log := s.log ++ (s.queue.filter active).take n
          walks := s.walks + if n = 0 then 0 else 1 }

/-- Until it is served, `a` does not leave and is active. -/
def Patient (a : α) (s : Service α) : Event α → Prop
  | .join _ => True
  | .leave b => a ∉ s.log → b ≠ a
  | .walk active _ => a ∉ s.log → active a = true

variable {s t : Service α} {a : α} {e : Event α}

theorem nodup_step (hnodup : s.queue.Nodup) (hstep : Step s e t) : t.queue.Nodup := by
  cases hstep with
  | join hnew => exact List.Nodup.append hnodup (List.nodup_singleton _) (by simpa using hnew)
  | leave => exact hnodup.erase _
  | @walk active n =>
    have hsplit : ahead active n s.queue ++ behind active n s.queue = s.queue := ahead_append_behind
    rw [← hsplit] at hnodup
    refine List.perm_append_comm.nodup_iff.mp (hnodup.sublist ?_)
    exact List.filter_sublist.append_right _

/-! ### Bounded waiting -/

/-- `a` waits for at most `bound` others. -/
structure Waiting (a : α) (bound : Nat) (s : Service α) : Prop where
  nodup : s.queue.Nodup
  mem : a ∉ s.log → a ∈ s.queue
  overtaken : a ∉ s.log → s.queue.idxOf a + s.log.length ≤ bound
  forward : a ∉ s.log → s.queue.idxOf a + s.walks ≤ bound
  served : a ∈ s.log → s.log.idxOf a ≤ bound

namespace Waiting

variable {bound : Nat}

theorem start {queue : List α} (hnodup : queue.Nodup) (hmem : a ∈ queue) :
    Waiting a (queue.idxOf a) ⟨queue, [], 0⟩ where
  nodup := hnodup
  mem _ := hmem
  overtaken _ := Nat.le_refl _
  forward _ := Nat.le_refl _
  served h := by cases h

/-- The queue changes in front of `a` or behind it, and nobody is served. -/
theorem moved (h : Waiting a bound s) {queue : List α} (hnodup : queue.Nodup)
    (hqueue : a ∉ s.log → a ∈ queue ∧ queue.idxOf a ≤ s.queue.idxOf a) : Waiting a bound { s with queue } where
  nodup := hnodup
  mem hlog := (hqueue hlog).1
  overtaken hlog := Nat.le_trans (Nat.add_le_add_right (hqueue hlog).2 _) (h.overtaken hlog)
  forward hlog := Nat.le_trans (Nat.add_le_add_right (hqueue hlog).2 _) (h.forward hlog)
  served := h.served

theorem walk (h : Waiting a bound s) {active : α → Bool} {n : Nat} (hactive : a ∉ s.log → active a = true) :
    Waiting a bound
      { queue := behind active n s.queue ++ (ahead active n s.queue).filter (! active ·)
        log := s.log ++ (s.queue.filter active).take n
        walks := s.walks + if n = 0 then 0 else 1 } := by
  have hqueue : ahead active n s.queue ++ behind active n s.queue = s.queue := ahead_append_behind
  by_cases hlog : a ∈ s.log
  · have hlog' : a ∈ s.log ++ (s.queue.filter active).take n := List.mem_append_left _ hlog
    refine ⟨nodup_step h.nodup .walk, absurd hlog', absurd hlog', absurd hlog', fun _ => ?_⟩
    rw [List.idxOf_append_of_mem hlog]
    exact h.served hlog
  have hmem := h.mem hlog
  have hindex : (s.queue.filter active).idxOf a ≤ s.queue.idxOf a :=
    idxOf_le_of_sublist h.nodup List.filter_sublist (List.mem_filter.mpr ⟨hmem, hactive hlog⟩)
  have hovertaken := h.overtaken hlog
  by_cases hserved : a ∈ (s.queue.filter active).take n
  · have hlog' : a ∈ s.log ++ (s.queue.filter active).take n := List.mem_append_right _ hserved
    refine ⟨nodup_step h.nodup .walk, absurd hlog', absurd hlog', absurd hlog', fun _ => ?_⟩
    have htake : ((s.queue.filter active).take n).idxOf a = (s.queue.filter active).idxOf a := by
      conv_rhs => rw [← List.take_append_drop n (s.queue.filter active)]
      rw [List.idxOf_append_of_mem hserved]
    rw [List.idxOf_append_of_notMem hlog, htake]
    omega
  · -- `a` stands behind all those that are served, and these are as many as there are servers
    have hbehind := mem_behind h.nodup hmem (hactive hlog) hserved
    have hahead := not_mem_ahead h.nodup hmem (hactive hlog) hserved
    have hfront := le_length_ahead h.nodup hmem (hactive hlog) hserved
    have hsplit : s.queue.idxOf a = (behind active n s.queue).idxOf a + (ahead active n s.queue).length := by
      conv_lhs => rw [← hqueue]
      rw [List.idxOf_append_of_notMem hahead, Nat.add_comm]
    have hnew : (behind active n s.queue ++ (ahead active n s.queue).filter (! active ·)).idxOf a =
        (behind active n s.queue).idxOf a := List.idxOf_append_of_mem hbehind
    refine ⟨nodup_step h.nodup .walk, fun _ => List.mem_append_left _ hbehind, fun _ => ?_, fun _ => ?_, ?_⟩
    · have htake : ((s.queue.filter active).take n).length ≤ n := List.length_take_le ..
      simp only [hnew, List.length_append]
      omega
    · have hforward := h.forward hlog
      simp only [hnew]
      split <;> omega
    · intro hlog'
      exact absurd hlog' (by simp [hlog, hserved])

theorem step (h : Waiting a bound s) (hpatient : Patient a s e) (hstep : Step s e t) : Waiting a bound t := by
  have hnodup := nodup_step h.nodup hstep
  cases hstep with
  | join hnew =>
    refine h.moved hnodup fun hlog => ⟨List.mem_append_left _ (h.mem hlog), Nat.le_of_eq ?_⟩
    exact List.idxOf_append_of_mem (h.mem hlog)
  | leave =>
    refine h.moved hnodup fun hlog => ?_
    have hmem := (List.mem_erase_of_ne (Ne.symm (hpatient hlog))).mpr (h.mem hlog)
    exact ⟨hmem, idxOf_le_of_sublist h.nodup List.erase_sublist hmem⟩
  | walk => exact h.walk hpatient

/-- A patient member is served at the latest by the walk after as many as stood ahead of it. -/
theorem mem_log (h : Waiting a bound s) (hwalks : bound < s.walks) : a ∈ s.log := by
  by_contra hlog
  have hforward := h.forward hlog
  omega

end Waiting

/-- **Bounded waiting.** Along every run in which `a` is patient. -/
theorem bounded_waiting {queue : List α} (hnodup : queue.Nodup) (hmem : a ∈ queue) {events : List (Event α)}
    (hrun : Runs (fun s e t => Step s e t ∧ Patient a s e) ⟨queue, [], 0⟩ events s) :
    Waiting a (queue.idxOf a) s :=
  hrun.invariant (P := Waiting a (queue.idxOf a)) (.start hnodup hmem) fun _ _ _ h hstep => h.step hstep.2 hstep.1

/-- An active member that is still in the queue after a step is nearer to its head if a walk has found a server, and no further from it otherwise. -/
theorem forward (hnodup : s.queue.Nodup) (hmem : a ∈ s.queue) (hactive : ∀ active n, e = .walk active n → active a = true)
    (hstep : Step s e t) (hmem' : a ∈ t.queue) : t.queue.idxOf a + t.walks ≤ s.queue.idxOf a + s.walks := by
  cases hstep with
  | join hnew => exact Nat.add_le_add_right (Nat.le_of_eq (List.idxOf_append_of_mem hmem)) _
  | leave => exact Nat.add_le_add_right (idxOf_le_of_sublist hnodup List.erase_sublist hmem') _
  | @walk active n =>
    have ha := hactive active n rfl
    have hqueue : ahead active n s.queue ++ behind active n s.queue = s.queue := ahead_append_behind
    have hleft : a ∉ (s.queue.filter active).take n := by
      rw [← filter_ahead hnodup]
      intro hserved
      have hahead := List.mem_of_mem_filter hserved
      rw [← hqueue] at hnodup
      rcases List.mem_append.mp hmem' with hbehind | hpassed
      · exact (List.nodup_append.mp hnodup).2.2 a hahead a hbehind rfl
      · simp [ha] at hpassed
    have hforward := ((Waiting.start hnodup hmem).walk (n := n) fun _ => ha).forward (by simpa using hleft)
    dsimp only at hforward ⊢
    omega

/-! ### Order and number -/

def Event.joins? : Event α → Option α
  | .join a => some a
  | .leave _ | .walk _ _ => none

/-- Those who joined, in their order. -/
def joined (events : List (Event α)) : List α := events.filterMap Event.joins?

omit [DecidableEq α] in
theorem joined_snoc (events : List (Event α)) (e : Event α) :
    joined (events ++ [e]) = joined events ++ e.joins?.toList := by
  rw [joined, joined, List.filterMap_append]
  cases e <;> rfl

/-- Nobody is passed over. -/
def Event.Impartial : Event α → Prop
  | .join _ | .leave _ => True
  | .walk active _ => ∀ a, active a = true

theorem behind_of_impartial {active : α → Bool} (hactive : ∀ a, active a = true) {queue : List α} (hnodup : queue.Nodup)
    (n : Nat) : (queue.filter active).take n ++
      (behind active n queue ++ (ahead active n queue).filter (! active ·)) = queue := by
  have hfilter : ∀ l : List α, l.filter active = l := fun l => List.filter_eq_self.mpr fun b _ => hactive b
  have hnone : (ahead active n queue).filter (! active ·) = [] := List.filter_eq_nil_iff.mpr fun b _ => by simp [hactive b]
  rw [hnone, List.append_nil, ← filter_ahead hnodup, hfilter]
  exact ahead_append_behind

/-- **First come, first served**: when nobody is passed over, those served and those who wait are in the order in which they joined. -/
theorem served_in_order {queue : List α} (hnodup : queue.Nodup) {events : List (Event α)}
    (hrun : Runs (fun s e t => Step s e t ∧ e.Impartial) ⟨queue, [], 0⟩ events s) :
    (s.log ++ s.queue).Sublist (queue ++ joined events) := by
  refine (hrun.invariant_history (P := fun events s => s.queue.Nodup ∧
    (s.log ++ s.queue).Sublist (queue ++ joined events)) ⟨hnodup, by simp [joined]⟩ ?_).2
  rintro events s e t ⟨hnodup, hsub⟩ ⟨hstep, himpartial⟩
  refine ⟨nodup_step hnodup hstep, ?_⟩
  cases hstep with
  | @join b =>
    have hmore := hsub.append (List.Sublist.refl [b])
    simpa [joined_snoc, Event.joins?] using hmore
  | @leave b =>
    have hless := ((List.Sublist.refl s.log).append (List.erase_sublist (a := b))).trans hsub
    simpa [joined_snoc, Event.joins?] using hless
  | @walk active n =>
    rw [List.append_assoc, behind_of_impartial himpartial hnodup]
    simpa [joined_snoc, Event.joins?] using hsub

/-- **Nobody is served twice for joining once**, and when nobody leaves those served and those who wait are those who joined. -/
theorem served_once {queue : List α} (hnodup : queue.Nodup) {events : List (Event α)}
    (hrun : Runs Step ⟨queue, [], 0⟩ events s) :
    (s.log ++ s.queue).Subperm (queue ++ joined events) ∧
      ((∀ a, .leave a ∉ events) → (s.log ++ s.queue).Perm (queue ++ joined events)) := by
  refine (hrun.invariant_history (P := fun events s => s.queue.Nodup ∧
    (s.log ++ s.queue).Subperm (queue ++ joined events) ∧
      ((∀ a, .leave a ∉ events) → (s.log ++ s.queue).Perm (queue ++ joined events))) ?_ ?_).2
  · exact ⟨hnodup, by simpa [joined] using List.Subperm.refl queue, fun _ => by simp [joined]⟩
  rintro events s e t ⟨hnodup, hsub, hperm⟩ hstep
  have hperm' : (∀ a, .leave a ∉ events ++ [e]) → (s.log ++ s.queue).Perm (queue ++ joined events) :=
    fun hstay => hperm fun a hmem => hstay a (List.mem_append_left _ hmem)
  refine ⟨nodup_step hnodup hstep, ?_⟩
  cases hstep with
  | @join b =>
    have hjoined : queue ++ joined (events ++ [.join b]) = queue ++ joined events ++ [b] := by
      simp [joined_snoc, Event.joins?]
    rw [hjoined, ← List.append_assoc]
    exact ⟨(List.subperm_append_right [b]).mpr hsub, fun hstay => (hperm' hstay).append_right [b]⟩
  | @leave b =>
    have hjoined : joined (events ++ [.leave b]) = joined events := by simp [joined_snoc, Event.joins?]
    rw [hjoined]
    refine ⟨?_, fun hstay => absurd (List.mem_append_right _ List.mem_cons_self) (hstay b)⟩
    exact ((List.Sublist.refl s.log).append List.erase_sublist).subperm.trans hsub
  | @walk active n =>
    have hjoined : joined (events ++ [.walk active n]) = joined events :=
      (joined_snoc events _).trans (List.append_nil _)
    have hsame : (s.log ++ (s.queue.filter active).take n ++
        (behind active n s.queue ++ (ahead active n s.queue).filter (! active ·))).Perm (s.log ++ s.queue) := by
      rw [List.append_assoc]
      apply List.Perm.append_left
      rw [← filter_ahead hnodup]
      have hsplit : ahead active n s.queue ++ behind active n s.queue = s.queue := ahead_append_behind
      conv_rhs => rw [← hsplit]
      refine (List.Perm.append_left _ List.perm_append_comm).trans ?_
      rw [← List.append_assoc]
      exact List.Perm.append_right _ (List.filter_append_perm active _)
    rw [hjoined]
    exact ⟨hsame.subperm.trans hsub, fun hstay => hsame.trans (hperm' hstay)⟩

end Service

end CosUserspace
