import CosUserspace.Workload.GeneratorRound
import Mathlib.Data.Fintype.Card

/-!
# What keeps everybody going

With more empty slots in the epistle at the start than workers there is always one left, since the workers add no keys but their own and each of them once. So every call on the epistle is over after a bounded number of accesses, and so is a round of the generator. `Lively` collects this with the locks that `main` and the generator wait for.
-/

namespace CosUserspace

namespace Workload

open Epistle.Clients (Bounded)

variable {capacity : Nat} [NeZero capacity] {S : Setup}

/-! ### Empty slots -/

omit [NeZero capacity] in
/-- An access of `add` stores no key but its own. -/
theorem addMove_occ {key : Int32} {e : Epistle UInt32 capacity} (hkey : key ≠ 0) (value : UInt32)
    (pc : Epistle.AddPc capacity) (slot : Fin capacity) (k : Int32)
    (hslot : (Epistle.addMove key value e pc).2.occ slot = some k) : e.occ slot = some k ∨ k = key := by
  cases pc with
  | test idx | recheck idx | returned => exact .inl hslot
  | write idx => exact .inl (by simpa [Epistle.addMove] using hslot)
  | swap idx =>
    by_cases hzero : (e.table idx).key = 0
    · simp only [Epistle.addMove, Epistle.compareAndSwap, if_pos hzero] at hslot
      rw [Epistle.occ_setKey hkey] at hslot
      by_cases heq : slot = idx
      · rw [heq, Function.update_self] at hslot
        exact .inr (Option.some.inj hslot).symm
      · rw [Function.update_of_ne heq] at hslot
        exact .inl hslot
    · simp only [Epistle.addMove, Epistle.compareAndSwap, if_neg hzero] at hslot
      exact .inl hslot

omit [NeZero capacity] in
/-- What `main` has to find in the table that it opens: no entries of its workers, blank empty slots, and more of these than workers. -/
structure Roomy (S : Setup) (e : Epistle UInt32 capacity) : Prop where
  lacks : ∀ w, e.Lacks (S.tid w)
  blank : e.Blank
  room : S.numWorkers < (Finset.univ.filter fun idx => e.occ idx = none).card

omit [NeZero capacity] in
theorem Roomy.init (hmore : S.numWorkers < capacity) : Roomy S (Epistle.init : Epistle UInt32 capacity) where
  lacks w idx hidx := by simp [Epistle.occ_init] at hidx
  blank := Epistle.blank_init
  room := by simpa [Epistle.occ_init] using hmore

/-- The slots that were empty in the table `old` hold no keys but those of the workers. -/
def OwnKeys (S : Setup) (old e : Epistle UInt32 capacity) : Prop :=
  ∀ idx k, old.occ idx = none → e.occ idx = some k → ∃ w, k = S.tid w

omit [NeZero capacity] in
theorem AddsFor.ownKeys {old e e' : Epistle UInt32 capacity} (hadds : AddsFor S e e') (hown : OwnKeys S old e) :
    OwnKeys S old e' := by
  rcases hadds with rfl | ⟨w, value, pc, rfl⟩
  · exact hown
  · intro idx k hold hslot
    rcases addMove_occ (S.tid_ne_zero w) value pc idx k hslot with hbefore | rfl
    · exact hown idx k hold hbefore
    · exact ⟨w, rfl⟩

/-- With more empty slots at the start than workers one of them stays empty. -/
theorem exists_free {old e : Epistle UInt32 capacity} (hown : OwnKeys S old e)
    (hplaced : ∀ w, KeyPlaced Epistle.hash e.occ (S.tid w))
    (hroom : S.numWorkers < (Finset.univ.filter fun idx => old.occ idx = none).card) :
    ∃ slot, e.occ slot = none := by
  by_contra hfull
  have howner : ∀ slot : { idx // old.occ idx = none }, ∃ w, e.occ slot.1 = some (S.tid w) := by
    intro slot
    obtain ⟨k, hslot⟩ := Option.ne_none_iff_exists'.mp fun hnone => hfull ⟨slot.1, hnone⟩
    obtain ⟨w, rfl⟩ := hown slot.1 k slot.2 hslot
    exact ⟨w, hslot⟩
  choose owner howner using howner
  have hinjective : Function.Injective owner := by
    intro slot slot' heq
    exact Subtype.ext ((hplaced (owner slot)).unique (howner slot) (heq ▸ howner slot'))
  have hcard := Fintype.card_le_of_injective owner hinjective
  rw [Fintype.card_subtype, Fintype.card_fin] at hcard
  omega

namespace Experiment

variable {s t : Experiment S capacity}

theorem Inv.placed (h : Inv s) (w : Fin S.numWorkers) : KeyPlaced Epistle.hash s.handOff.epistle.occ (S.tid w) := by
  by_cases hworking : s.generator = .working
  · exact ((h.working hworking).desks w).placed
  · exact ((h.closed hworking).desks w).placed

end Experiment

/-! ### Locks -/

section Locks

/-- A worker sets its lock when it announces itself, and never resets it. -/
theorem Desk.move_lock (batch : Nat) (key : Int32) (now : UInt64) (e : Epistle UInt32 capacity) (d : Desk capacity) :
    (d.move batch key now e).2.lock = true ∨ (d.move batch key now e).2.lock = d.lock ∧ d.pc ≠ .announce := by
  have hrequest : ∀ i (f : Request → Desk capacity), (∀ r, (f r).lock = d.lock) → (d.withRequest i f).lock = d.lock := by
    intro i f hf
    unfold withRequest
    cases d.requests[i]? with
    | none => rfl
    | some r => exact hf r
  unfold Desk.move
  cases hpc : d.pc with
  | announce => exact .inl rfl
  | start | finish | release | failed => exact .inr ⟨rfl, by simp⟩
  | register add | retire add | lookup | measure num =>
    refine .inr ⟨?_, by simp⟩
    dsimp only
    split <;> rfl
  | poll get | confirm get | load =>
    refine .inr ⟨?_, by simp⟩
    dsimp only
    split
    · rfl
    · split <;> rfl
  | stampStart num i time | stampFinish num i time | handle num i | append num i =>
    exact .inr ⟨hrequest i _ fun _ => rfl, by simp⟩

namespace HandOff

variable {s : HandOff S capacity}

omit [NeZero capacity] in
theorem setDesk_lock {w : Fin S.numWorkers} {d : Desk capacity} (hd : d.lock = (s.desk w).lock) (v : Fin S.numWorkers) :
    ((s.setDesk w d).desk v).lock = (s.desk v).lock := by
  by_cases hv : v = w
  · subst hv
    simpa [setDesk] using hd
  · rw [setDesk_desk_of_ne hv]

/-- The generator sets no lock. -/
theorem moveGenerator_lock (input : Input) :
    (∀ v, ((s.moveGenerator input).desk v).lock = (s.desk v).lock) ∧
      (s.moveGenerator input).generatorLock = s.generatorLock := by
  unfold moveGenerator
  cases hpc : s.generator with
  | launch | receive | assign | stopped | failed => exact ⟨fun _ => rfl, rfl⟩
  | wait | enter =>
    dsimp only
    split <;> exact ⟨fun _ => rfl, rfl⟩
  | look w get | confirm w get =>
    dsimp only
    split
    · exact ⟨fun _ => rfl, rfl⟩
    · split <;> exact ⟨fun _ => rfl, rfl⟩
  | expectZero w | testEmpty w | bound w =>
    apply withWork_of (P := fun t => (∀ v, (t.desk v).lock = (s.desk v).lock) ∧ t.generatorLock = s.generatorLock)
      ⟨fun _ => rfl, rfl⟩
    intro work
    split <;> exact ⟨fun _ => rfl, rfl⟩
  | clear w | push w k r | store w num =>
    apply withWork_of (P := fun t => (∀ v, (t.desk v).lock = (s.desk v).lock) ∧ t.generatorLock = s.generatorLock)
      ⟨fun _ => rfl, rfl⟩
    intro work
    refine ⟨fun v => ?_, rfl⟩
    show ((s.setDesk w _).desk v).lock = _
    apply setDesk_lock
    rfl
  | arrive w k =>
    dsimp only
    split
    · exact ⟨fun _ => rfl, rfl⟩
    · split <;> exact ⟨fun _ => rfl, rfl⟩
  | measure w =>
    apply withWork_of (P := fun t => (∀ v, (t.desk v).lock = (s.desk v).lock) ∧ t.generatorLock = s.generatorLock)
      ⟨fun _ => rfl, rfl⟩
    intro work
    exact ⟨fun _ => rfl, rfl⟩
  | hand w add =>
    dsimp only
    split <;> exact ⟨fun _ => rfl, rfl⟩

omit [NeZero capacity] in
/-- `main` sets the lock of the generator and is done with setting up. -/
theorem moveMain_lock : (∀ v, (s.moveMain.desk v).lock = (s.desk v).lock) ∧ s.moveMain.generator = s.generator ∧
    ((s.main = .done → s.generatorLock = true) → s.moveMain.main = .done → s.moveMain.generatorLock = true) := by
  unfold moveMain
  split
  · split
    · split
      · exact ⟨fun _ => rfl, rfl, fun _ hmain => by cases hmain⟩
      · exact ⟨fun _ => rfl, rfl, fun hlock hmain => hlock hmain⟩
    · exact ⟨fun _ => rfl, rfl, fun _ hmain => by cases hmain⟩
  · split
    · refine ⟨fun v => ?_, rfl, fun _ hmain => by cases hmain⟩
      show ((s.setDesk _ _).desk v).lock = _
      apply setDesk_lock
      rfl
    · exact ⟨fun _ => rfl, rfl, fun hlock hmain => hlock hmain⟩
  · exact ⟨fun _ => rfl, rfl, fun _ _ => rfl⟩
  · exact ⟨fun _ => rfl, rfl, fun hlock hmain => hlock hmain⟩

end HandOff

end Locks

namespace Experiment

variable {s t : Experiment S capacity}

/-! ### The invariant -/

structure Lively (s : Experiment S capacity) : Prop where
  ahead : s.generator = .working → ∃ n, Ahead S s.handOff.epistle.occ n s.handOff.generator
  marking : ∀ w pc, s.generator = .mark w pc →
    ∃ count, Bounded s.handOff.epistle.occ count (.adding (S.tid w) epistleThreadRunnable pc)
  released : s.handOff.main = .done → s.handOff.generatorLock = true
  announced : ∀ w, (s.handOff.desk w).lock = false → (s.handOff.desk w).pc = .announce ∧ s.worker w = .inside

namespace Lively

theorem init (S : Setup) (e : Epistle UInt32 capacity) : Lively (Experiment.init S e) where
  ahead _ := ⟨2, Nat.le_refl 2⟩
  marking _ _ hgenerator := by cases hgenerator
  released hmain := by cases hmain
  announced _ _ := ⟨rfl, rfl⟩

/-- The generator does not move. -/
theorem frame (h : Lively s) (hkeeps : ∀ idx k, s.handOff.epistle.occ idx = some k → t.handOff.epistle.occ idx = some k)
    (hgenerator : t.handOff.generator = s.handOff.generator) (hlife : t.generator = s.generator)
    (hreleased : t.handOff.main = .done → t.handOff.generatorLock = true)
    (hannounced : ∀ w, (t.handOff.desk w).lock = false → (t.handOff.desk w).pc = .announce ∧ t.worker w = .inside) :
    Lively t where
  ahead hworking := by
    obtain ⟨n, hahead⟩ := h.ahead (hlife ▸ hworking)
    rw [hgenerator]
    exact ⟨n, hahead.mono hkeeps⟩
  marking w pc hmark := by
    obtain ⟨count, hbounded⟩ := h.marking w pc (hlife ▸ hmark)
    exact ⟨count, hbounded.mono hkeeps⟩
  released := hreleased
  announced := hannounced

theorem worker (h : Lively s) (w : Fin S.numWorkers) (now : UInt64) : Lively (s.moveWorker w now) := by
  cases hworker : s.worker w with
  | head =>
    simp only [moveWorker, hworker]
    refine h.frame (fun _ _ hslot => hslot) rfl rfl h.released fun v hlock => ?_
    obtain ⟨hpc, hinside⟩ := h.announced v hlock
    have hv : v ≠ w := fun heq => by simp [heq, hworker] at hinside
    exact ⟨hpc, (Function.update_of_ne hv ..).trans hinside⟩
  | inside =>
    have hself : (s.handOff.moveWorker w now).desk w =
        ((s.handOff.desk w).move S.batch (S.tid w) now s.handOff.epistle).2 := Function.update_self ..
    simp only [moveWorker, hworker]
    refine h.frame (Desk.move_keeps (S.tid_ne_zero w)) rfl rfl h.released fun v hlock => ?_
    dsimp only at hlock ⊢
    by_cases hv : v = w
    · subst hv
      rw [hself] at hlock
      rcases Desk.move_lock S.batch (S.tid v) now s.handOff.epistle (s.handOff.desk v) with hset | ⟨hsame, hnot⟩
      · rw [hset] at hlock
        cases hlock
      · exact absurd (h.announced v (hsame.symm.trans hlock)).1 hnot
    · have hother : (s.handOff.moveWorker w now).desk v = s.handOff.desk v := Function.update_of_ne hv ..
      rw [hother] at hlock ⊢
      obtain ⟨hpc, hinside⟩ := h.announced v hlock
      exact ⟨hpc, (Function.update_of_ne hv ..).trans hinside⟩
  | exited =>
    simp only [moveWorker, hworker]
    exact h

theorem main (h : Lively s) (signal : Signal) : Lively (s.moveMain signal) := by
  rcases moveMain_cases signal s with ⟨-, -, hmove⟩ | ⟨_, _, _, _, -, -, hmove⟩
  · obtain ⟨hlock, hgenerator, hreleased⟩ := HandOff.moveMain_lock (s := s.handOff)
    have hpc := HandOff.moveMain_pc (s := s.handOff)
    have hsame : s.handOff.moveMain.epistle = s.handOff.epistle := by
      unfold HandOff.moveMain
      repeat' split
      all_goals rfl
    rw [hmove]
    refine h.frame (fun idx k hslot => ?_) hgenerator rfl (hreleased h.released) fun v hv => ?_
    · dsimp only
      rwa [hsame]
    · dsimp only at hv ⊢
      rw [hlock] at hv
      rw [hpc]
      exact h.announced v hv
  · rw [hmove]
    exact h.frame (fun _ _ hslot => hslot) rfl rfl h.released h.announced

/-- The generator enters its loop over the workers that it marks. -/
theorem bounded_nextMark {occ : Fin capacity → Option Int32} {i : Nat} {w : Fin S.numWorkers}
    {pc : Epistle.AddPc capacity} (hmark : nextMark S i = .mark w pc) :
    Bounded occ 0 (.adding (S.tid w) epistleThreadRunnable pc) := by
  unfold nextMark at hmark
  split at hmark
  · obtain ⟨rfl, rfl⟩ := GeneratorLife.mark.inj hmark
    exact .start occ _
  · cases hmark

theorem generator (h : Lively s) (input : Input) {slot : Fin capacity} (hfree : s.handOff.epistle.occ slot = none)
    (hfree' : (s.moveGenerator input).handOff.epistle.occ slot = none) : Lively (s.moveGenerator input) := by
  unfold moveGenerator at hfree' ⊢
  cases hgenerator : s.generator with
  | working =>
    simp only [hgenerator] at hfree' ⊢
    split
    · constructor
      case ahead => exact fun hworking => by cases hworking
      case marking => exact fun _ _ hmark => by cases hmark
      case released => exact h.released
      case announced => exact h.announced
    · rename_i hgoes
      rw [if_neg hgoes] at hfree'
      have hframe := s.handOff.moveGenerator_frame input
      have hlock := s.handOff.moveGenerator_lock input
      constructor
      case ahead => exact fun _ => Ahead.move_exists (h.ahead hgenerator) hfree hfree'
      case marking => exact fun _ _ hmark => by cases hmark
      case released =>
        intro hmain
        exact hlock.2.trans (h.released (hframe.2.symm.trans hmain))
      case announced =>
        intro v hv
        dsimp only at hv ⊢
        rw [hlock.1] at hv
        rw [hframe.1]
        exact h.announced v hv
  | head =>
    simp only
    split
    · constructor
      case ahead => exact fun hworking => by cases hworking
      case marking => exact fun _ _ hmark => by cases hmark
      case released => exact h.released
      case announced => exact h.announced
    · constructor
      case ahead => exact fun hworking => absurd hworking (Inv.nextMark_ne_working 0)
      case marking => exact fun _ _ hmark => ⟨0, bounded_nextMark hmark⟩
      case released => exact h.released
      case announced => exact h.announced
  | mark w pc =>
    obtain ⟨count, hbounded⟩ := h.marking w pc hgenerator
    rcases hmove : Epistle.addMove (S.tid w) epistleThreadRunnable s.handOff.epistle pc with ⟨pc', e'⟩
    simp only [hgenerator, hmove] at hfree' ⊢
    have hafter : e'.occ slot = none := by cases pc' <;> exact hfree'
    rcases adding_cases (S.tid_ne_zero w) hbounded hmove hafter with ⟨rfl, -⟩ | ⟨hnot, hbounded'⟩
    · constructor
      case ahead => exact fun hworking => absurd hworking (Inv.nextMark_ne_working _)
      case marking => exact fun _ _ hmark => ⟨0, bounded_nextMark hmark⟩
      case released => exact h.released
      case announced => exact h.announced
    · have hnext : ∀ {life : GeneratorLife S.numWorkers capacity}, life = .mark w pc' →
          Lively { s with handOff := { s.handOff with epistle := e' }, generator := life } := by
        rintro life rfl
        constructor
        case ahead => exact fun hworking => by cases hworking
        case marking =>
          intro v pc'' hmark
          obtain ⟨rfl, rfl⟩ := GeneratorLife.mark.inj hmark
          exact ⟨count + 1, hbounded'⟩
        case released => exact h.released
        case announced => exact h.announced
      cases pc' with
      | returned => exact absurd rfl hnot
      | _ => exact hnext rfl
  | exited =>
    simp only
    exact h

theorem step (h : Lively s) {action : Thread S.numWorkers × Signal} (hstep : Step s action t) {slot : Fin capacity}
    (hfree : t.handOff.epistle.occ slot = none) : Lively t := by
  have hbefore := hstep.free_before hfree
  obtain ⟨thread, signal⟩ := action
  obtain ⟨-, rfl⟩ := hstep
  have hticked : Lively { s with handOff := { s.handOff with clock := signal.now } } :=
    h.frame (fun _ _ hslot => hslot) rfl rfl h.released h.announced
  cases thread with
  | main => exact hticked.main signal
  | generator => exact hticked.generator signal.toInput hbefore hfree
  | worker w => exact hticked.worker w signal.now

end Lively

/-- What holds in every state of a run, with room for the workers. -/
structure Sound (s : Experiment S capacity) : Prop where
  inv : Inv s
  budgets : Budgets s
  lively : Lively s
  free : ∃ slot, s.handOff.epistle.occ slot = none

theorem sound_of_runs {e : Epistle UInt32 capacity} (hroom : Roomy S e) {actions : List (Thread S.numWorkers × Signal)}
    (hrun : Runs SettledStep (Experiment.init S e) actions s) : Sound s := by
  have hown : OwnKeys S e e := fun idx k hnone hidx => by simp [hnone] at hidx
  obtain ⟨hinv, hkeys, hlively⟩ : Inv s ∧ OwnKeys S e s.handOff.epistle ∧ Lively s := by
    apply hrun.invariant (P := fun t => Inv t ∧ OwnKeys S e t.handOff.epistle ∧ Lively t)
      ⟨.init hroom.lacks hroom.blank, hown, .init S _⟩
    intro t action u h hstep
    obtain ⟨hinv, hkeys, hlively⟩ := h
    have hinv' := hinv.step hstep
    have hkeys' : OwnKeys S e u.handOff.epistle := by
      rw [hstep.1.2]
      exact (move_epistle action.1 action.2).ownKeys hkeys
    obtain ⟨slot, hfree⟩ := exists_free hkeys' hinv'.placed hroom.room
    exact ⟨hinv', hkeys', hlively.step hstep.1 hfree⟩
  obtain ⟨slot, hfree⟩ := exists_free hkeys hinv.placed hroom.room
  exact ⟨hinv, budgets_of_runs (hrun.mono fun _ _ _ hstep => hstep.1) hfree, hlively, slot, hfree⟩

end Experiment

end Workload

end CosUserspace
