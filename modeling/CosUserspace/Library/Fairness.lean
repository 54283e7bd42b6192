import CosUserspace.Library.Runs
import Mathlib.Data.Finset.Lattice.Fold
import Mathlib.Data.Fintype.Basic

/-!
# Fair runs

An infinite run of a system of agents is fair if every agent that is ready from some time on moves again and again. What one agent brings about by a bounded number of its own moves, while it is ready and the others do not undo it, comes about in every fair run; `reaches` and `reaches_once` are the rules. An agent that is not ready by itself may be got ready by another one: `until_move_of_helper`.
-/

namespace CosUserspace

variable {σ α τ : Type*}

/-- An infinite run from `s` in which no agent that stays ready waits for ever. -/
structure FairRun (R : σ → α → σ → Prop) (agent : α → τ) (ready : τ → σ → Prop) (s : σ) where
  state : ℕ → σ
  label : ℕ → α
  start : state 0 = s
  step : ∀ i, R (state i) (label i) (state (i + 1))
  fair : ∀ t i, ∃ j, i ≤ j ∧ (agent (label j) = t ∨ ¬ ready t (state j))

namespace FairRun

variable {R : σ → α → σ → Prop} {agent : α → τ} {ready : τ → σ → Prop} {s : σ} (run : FairRun R agent ready s) {i j : ℕ}

/-- The labels up to `i` lead to the state `i`. -/
theorem runs (i : ℕ) : Runs R s ((List.range i).map run.label) (run.state i) := by
  induction i with
  | zero =>
    rw [run.start]
    exact .nil
  | succ i ih =>
    rw [List.range_succ, List.map_append]
    exact ih.snoc (run.step i)

/-- What every step keeps holds from then on. -/
theorem persists {P : σ → Prop} (hstep : ∀ s a t, P s → R s a t → P t) (hP : P (run.state i)) (hle : i ≤ j) :
    P (run.state j) := by
  induction j, hle using Nat.le_induction with
  | base => exact hP
  | succ j _ ih => exact hstep _ _ _ ih (run.step j)

/-- What every step keeps and what does not hold from `i` on has not held before. -/
theorem not_before {P : σ → Prop} (hstep : ∀ s a t, P s → R s a t → P t) (hnot : ∀ d, ¬ P (run.state (i + d))) (j : ℕ) :
    ¬ P (run.state j) := by
  intro hP
  have hlate := run.persists hstep hP (Nat.le_max_left j i)
  obtain ⟨d, hd⟩ := Nat.exists_eq_add_of_le (Nat.le_max_right j i)
  rw [hd] at hlate
  exact hnot d hlate

/-- Finitely many things that come about and stay so are all there at some time. -/
theorem exists_all {ι : Type*} [Fintype ι] {P : ι → σ → Prop} (hstep : ∀ x s a t, P x s → R s a t → P x t)
    (hreach : ∀ x, ∃ i, P x (run.state i)) : ∃ i, ∀ x, P x (run.state i) := by
  choose time htime using hreach
  refine ⟨Finset.univ.sup time, fun x => ?_⟩
  exact run.persists (hstep x) (htime x) (Finset.le_sup (Finset.mem_univ x))

/-- What the moves of the others keep still holds at the next move of `t`, unless they bring about `Q`. -/
theorem until_move (t : τ) {P Q : ℕ → Prop} (hready : ∀ i, P i → ready t (run.state i))
    (hother : ∀ i, P i → agent (run.label i) ≠ t → Q (i + 1) ∨ P (i + 1)) (hP : P i) :
    (∃ j, i ≤ j ∧ Q j) ∨ ∃ j, i ≤ j ∧ P j ∧ agent (run.label j) = t := by
  obtain ⟨m, hle, hm⟩ := run.fair t i
  obtain ⟨d, rfl⟩ := Nat.exists_eq_add_of_le hle
  induction d generalizing i with
  | zero => exact .inr ⟨i, Nat.le_refl i, hP, hm.resolve_right fun hnot => hnot (hready i hP)⟩
  | succ d ih =>
    by_cases hmove : agent (run.label i) = t
    · exact .inr ⟨i, Nat.le_refl i, hP, hmove⟩
    · rcases hother i hP hmove with hQ | hP'
      · exact .inl ⟨i + 1, Nat.le_succ i, hQ⟩
      · have hindex : i + 1 + d = i + (d + 1) := by omega
        rcases ih hP' (Nat.le_add_right ..) (hindex ▸ hm) with ⟨j, hj, hQ⟩ | ⟨j, hj, hlast⟩
        · exact .inl ⟨j, Nat.le_of_succ_le hj, hQ⟩
        · exact .inr ⟨j, Nat.le_of_succ_le hj, hlast⟩

/-- A move of `t` brings about `Q`. -/
theorem reaches_once (t : τ) {P Q : ℕ → Prop} (hready : ∀ i, P i → ready t (run.state i))
    (hother : ∀ i, P i → agent (run.label i) ≠ t → Q (i + 1) ∨ P (i + 1))
    (hmove : ∀ i, P i → agent (run.label i) = t → Q (i + 1)) (hP : P i) : ∃ j, i ≤ j ∧ Q j := by
  rcases run.until_move t hready hother hP with hreached | ⟨j, hj, hPj, ht⟩
  · exact hreached
  · exact ⟨j + 1, Nat.le_succ_of_le hj, hmove j hPj ht⟩

/-- A number of moves of `t` bring about `Q`, however long each of them takes to come: each lowers the rank. -/
theorem reaches_of_moves (t : τ) {P : ℕ → ℕ → Prop} {Q : ℕ → Prop}
    (hnext : ∀ n i, P n i → (∃ j, i ≤ j ∧ Q j) ∨ ∃ j, i ≤ j ∧ P n j ∧ agent (run.label j) = t)
    (hmove : ∀ n i, P n i → agent (run.label i) = t → Q (i + 1) ∨ ∃ m < n, P m (i + 1)) {n : ℕ} (hP : P n i) :
    ∃ j, i ≤ j ∧ Q j := by
  induction n using Nat.strong_induction_on generalizing i with
  | _ n ih =>
    rcases hnext n i hP with hreached | ⟨j, hj, hPj, ht⟩
    · exact hreached
    · rcases hmove n j hPj ht with hQ | ⟨m, hlt, hPm⟩
      · exact ⟨j + 1, Nat.le_succ_of_le hj, hQ⟩
      · obtain ⟨l, hl, hQ⟩ := ih m hlt hPm
        exact ⟨l, Nat.le_trans (Nat.le_succ_of_le hj) hl, hQ⟩

/-- A number of moves of `t`, which is ready all the time, bring about `Q`: each of them lowers the rank, and the moves of the others do not raise it. -/
theorem reaches (t : τ) {P : ℕ → ℕ → Prop} {Q : ℕ → Prop} (hready : ∀ n i, P n i → ready t (run.state i))
    (hother : ∀ n i, P n i → agent (run.label i) ≠ t → Q (i + 1) ∨ P n (i + 1))
    (hmove : ∀ n i, P n i → agent (run.label i) = t → Q (i + 1) ∨ ∃ m < n, P m (i + 1)) {n : ℕ} (hP : P n i) :
    ∃ j, i ≤ j ∧ Q j :=
  run.reaches_of_moves t (fun n _ hP => run.until_move t (hready n) (hother n) hP) hmove hP

/-- `u` gets `t` ready by a number of its moves, and then `t` stays so until it moves. -/
theorem until_move_of_helper (t u : τ) {P : ℕ → Prop} {H : ℕ → ℕ → Prop}
    (hhelper : ∀ n i, P i → H n i → ready u (run.state i))
    (hkeep : ∀ i, P i → agent (run.label i) ≠ t → P (i + 1))
    (hother : ∀ n i, P i → H n i → agent (run.label i) ≠ t → agent (run.label i) ≠ u →
      ready t (run.state (i + 1)) ∨ H n (i + 1))
    (hmove : ∀ n i, P i → H n i → agent (run.label i) ≠ t → agent (run.label i) = u →
      ready t (run.state (i + 1)) ∨ ∃ m < n, H m (i + 1))
    (hready : ∀ i, P i → ready t (run.state i) → agent (run.label i) ≠ t → ready t (run.state (i + 1)))
    (hP : P i) {n : ℕ} (hH : H n i) : ∃ j, i ≤ j ∧ P j ∧ agent (run.label j) = t := by
  by_contra hnever
  have hnot : ∀ j, i ≤ j → P j → agent (run.label j) ≠ t := fun j hle hP hmove => hnever ⟨j, hle, hP, hmove⟩
  obtain ⟨j, -, hle, hPj, hreadyj⟩ : ∃ j, i ≤ j ∧ (i ≤ j ∧ P j ∧ ready t (run.state j)) := by
    refine run.reaches u (P := fun n j => i ≤ j ∧ P j ∧ H n j) (fun n j h => hhelper n j h.2.1 h.2.2) ?_ ?_
      ⟨Nat.le_refl i, hP, hH⟩
    · intro n j h hne
      obtain ⟨hle, hPj, hHj⟩ := h
      have hmoves := hnot j hle hPj
      have hPnext := hkeep j hPj hmoves
      exact (hother n j hPj hHj hmoves hne).imp (fun hr => ⟨Nat.le_succ_of_le hle, hPnext, hr⟩)
        fun hnext => ⟨Nat.le_succ_of_le hle, hPnext, hnext⟩
    · intro n j h hu
      obtain ⟨hle, hPj, hHj⟩ := h
      have hmoves := hnot j hle hPj
      have hPnext := hkeep j hPj hmoves
      refine (hmove n j hPj hHj hmoves hu).imp (fun hr => ⟨Nat.le_succ_of_le hle, hPnext, hr⟩) ?_
      rintro ⟨m, hlt, hnext⟩
      exact ⟨m, hlt, Nat.le_succ_of_le hle, hPnext, hnext⟩
  rcases run.until_move t (P := fun j => i ≤ j ∧ P j ∧ ready t (run.state j)) (Q := fun _ => False)
      (fun _ h => h.2.2) (fun k h hne => .inr ⟨Nat.le_succ_of_le h.1, hkeep k h.2.1 hne, hready k h.2.1 h.2.2 hne⟩)
      ⟨hle, hPj, hreadyj⟩ with ⟨k, -, hfalse⟩ | ⟨k, -, ⟨hk, hPk, -⟩, hmove⟩
  · exact hfalse
  · exact hnot k hk hPk hmove

/-! ### Fair runs out of other ones -/

def mono {R' : σ → α → σ → Prop} (run : FairRun R agent ready s) (h : ∀ s a t, R s a t → R' s a t) :
    FairRun R' agent ready s where
  state := run.state
  label := run.label
  start := run.start
  step i := h _ _ _ (run.step i)
  fair := run.fair

/-- In a fair order of moves that can all be made while `I` holds, there is a fair run. -/
theorem exists_of_order (ready : τ → σ → Prop) {I : σ → Prop} (label : ℕ → α)
    (hfair : ∀ t i, ∃ j, i ≤ j ∧ agent (label j) = t) (hstart : I s)
    (hnext : ∀ i s, I s → ∃ t, R s (label i) t ∧ I t) :
    ∃ run : FairRun R agent ready s, run.label = label ∧ ∀ i, I (run.state i) := by
  choose next hmove hkeep using hnext
  let state : ℕ → { s // I s } := fun i => Nat.rec ⟨s, hstart⟩ (fun i t => ⟨next i t.1 t.2, hkeep i t.1 t.2⟩) i
  have hmoves : ∀ t i, ∃ j, i ≤ j ∧ (agent (label j) = t ∨ ¬ ready t (state j).1) := by
    intro t i
    obtain ⟨j, hle, hj⟩ := hfair t i
    exact ⟨j, hle, .inl hj⟩
  exact ⟨⟨fun i => (state i).1, label, rfl, fun i => hmove i (state i).1 (state i).2, hmoves⟩, rfl, fun i => (state i).2⟩

/-- A move before a fair run. -/
def cons {a : α} {t : σ} (hfirst : R s a t) (rest : FairRun R agent ready t) : FairRun R agent ready s where
  state
    | 0 => s
    | i + 1 => rest.state i
  label
    | 0 => a
    | i + 1 => rest.label i
  start := rfl
  step
    | 0 => by
      show R s a (rest.state 0)
      rw [rest.start]
      exact hfirst
    | i + 1 => rest.step i
  fair t i := by
    obtain ⟨j, hle, hj⟩ := rest.fair t i
    exact ⟨j + 1, Nat.le_succ_of_le hle, hj⟩

/-- Every run goes on as a fair one from where a fair run starts. -/
theorem exists_of_runs {as : List α} {t : σ} (hrun : Runs R s as t) (rest : FairRun R agent ready t) :
    ∃ run : FairRun R agent ready s, ∀ j,
      run.state (as.length + j) = rest.state j ∧ run.label (as.length + j) = rest.label j := by
  induction hrun with
  | nil => exact ⟨rest, fun j => by simp⟩
  | @snoc as t u a _ hlast ih =>
    obtain ⟨run, hrest⟩ := ih (cons hlast rest)
    refine ⟨run, fun j => ?_⟩
    have hindex : (as ++ [a]).length + j = as.length + (j + 1) := by
      rw [List.length_append, List.length_singleton, Nat.add_assoc, Nat.add_comm 1 j]
    rw [hindex]
    exact hrest (j + 1)

/-! ### Fair runs inside of others -/

/-- A part of a whole moves in some of its steps, again and again, and the other steps leave it as it is. If all agents of the part that stay ready move, its moves alone are a fair run. -/
theorem exists_within {ρ : Type*} (view : ρ → σ) (whole : ℕ → ρ) (action : ℕ → Option α)
    (hmoves : ∀ i a, action i = some a → R (view (whole i)) a (view (whole (i + 1))))
    (hidle : ∀ i, action i = none → view (whole (i + 1)) = view (whole i))
    (hoften : ∀ i, ∃ j, i ≤ j ∧ (action j).isSome)
    (hfair : ∀ t i, ∃ j, i ≤ j ∧ ((∃ a, action j = some a ∧ agent a = t) ∨ ¬ ready t (view (whole j)))) :
    ∃ (run : FairRun R agent ready (view (whole 0))) (time : ℕ → ℕ), StrictMono time ∧
      ∀ n, run.state n = view (whole (time n)) ∧ action (time n) = some (run.label n) := by
  have hnext : ∀ i, ∃ j, i ≤ j ∧ (action j).isSome ∧ ∀ k, i ≤ k → (action k).isSome → j ≤ k := fun i =>
    ⟨Nat.find (hoften i), (Nat.find_spec (hoften i)).1, (Nat.find_spec (hoften i)).2,
      fun k hle hsome => Nat.find_min' (hoften i) ⟨hle, hsome⟩⟩
  choose next hle hsome hfirst using hnext
  -- nothing of the part moves before the next move
  have hview : ∀ i, view (whole (next i)) = view (whole i) := by
    intro i
    suffices hkeeps : ∀ j, i ≤ j → j ≤ next i → view (whole j) = view (whole i) from hkeeps _ (hle i) (Nat.le_refl _)
    intro j hij
    induction j, hij using Nat.le_induction with
    | base => exact fun _ => rfl
    | succ j hij ih =>
      intro hj
      have hnone : action j = none := by
        rw [← Option.not_isSome_iff_eq_none]
        exact fun hmove => Nat.not_succ_le_self j (Nat.le_trans hj (hfirst i j hij hmove))
      exact (hidle j hnone).trans (ih (Nat.le_of_succ_le hj))
  obtain ⟨time, hzero, hsucc⟩ : ∃ time : ℕ → ℕ, time 0 = next 0 ∧ ∀ n, time (n + 1) = next (time n + 1) :=
    ⟨fun n => n.rec (next 0) fun _ i => next (i + 1), rfl, fun _ => rfl⟩
  have hmono : StrictMono time := strictMono_nat_of_lt_succ fun n => hsucc n ▸ hle (time n + 1)
  have htime : ∀ n, (action (time n)).isSome := by
    intro n
    cases n with
    | zero => exact hzero ▸ hsome 0
    | succ n => exact hsucc n ▸ hsome (time n + 1)
  have hall : ∀ j, (action j).isSome → ∃ n, time n = j := by
    intro j hj
    have hbefore : ∀ n, j ≤ time n → ∃ m, time m = j := by
      intro n
      induction n with
      | zero => exact fun hlater => ⟨0, Nat.le_antisymm (hzero ▸ hfirst 0 j (Nat.zero_le j) hj) hlater⟩
      | succ n ih =>
        intro hlater
        by_cases hn : j ≤ time n
        · exact ih hn
        · exact ⟨n + 1, Nat.le_antisymm (hsucc n ▸ hfirst (time n + 1) j (Nat.lt_of_not_le hn) hj) hlater⟩
    exact hbefore j (hmono.id_le j)
  choose label hlabel using fun n => Option.isSome_iff_exists.mp (htime n)
  have hstart : view (whole (time 0)) = view (whole 0) := hzero ▸ hview 0
  refine ⟨⟨fun n => view (whole (time n)), label, hstart, fun n => ?_, fun t n => ?_⟩, time, hmono,
    fun n => ⟨rfl, hlabel n⟩⟩
  · rw [hsucc, hview]
    exact hmoves (time n) (label n) (hlabel n)
  · obtain ⟨j, hj, hcase⟩ := hfair t (time n)
    obtain ⟨m, hm⟩ := hall (next j) (hsome j)
    have hnm : n ≤ m := hmono.le_iff_le.mp (hm ▸ Nat.le_trans hj (hle j))
    rcases hcase with ⟨a, ha, hagent⟩ | hnot
    · have hnow : next j = j := Nat.le_antisymm (hfirst j j (Nat.le_refl j) (by simp [ha])) (hle j)
      have hsame : label m = a := by
        have hm' := hlabel m
        rw [hm, hnow, ha] at hm'
        exact (Option.some.inj hm').symm
      exact ⟨m, hnm, .inl (hsame ▸ hagent)⟩
    · refine ⟨m, hnm, .inr ?_⟩
      rw [hm, hview]
      exact hnot

end FairRun

end CosUserspace
