import Mathlib.Data.List.Basic
import Mathlib.Data.List.Infix

/-!
# Runs of a labelled transition relation

A system is a relation `R state label state'`. `Runs R s as t` says that the labels `as`, in this order, lead from `s` to `t`; every prefix of a run is a run, so a property of the last state of every run is a property of every reachable state. The rules the rest of the development uses are the invariant rule, forward simulation of one system by another and, for a property that a step may lose, the rule that says which steps lose it.
-/

namespace CosUserspace

variable {σ α : Type*}

/-- The labels of a list, taken in order, lead from `s` to the last state. -/
inductive Runs (R : σ → α → σ → Prop) (s : σ) : List α → σ → Prop
  | nil : Runs R s [] s
  | snoc {as : List α} {t u : σ} {a : α} : Runs R s as t → R t a u → Runs R s (as ++ [a]) u

namespace Runs

variable {R : σ → α → σ → Prop} {s t : σ} {as : List α}

/-- What holds at the start and is kept by every step of the run holds at its end. -/
theorem invariant {P : σ → Prop} (hrun : Runs R s as t) (hstart : P s)
    (hstep : ∀ t a u, P t → R t a u → P u) : P t := by
  induction hrun with
  | nil => exact hstart
  | snoc _ hlast ih => exact hstep _ _ _ ih hlast

theorem invariant_history {P : List α → σ → Prop} (hrun : Runs R s as t) (hstart : P [] s)
    (hstep : ∀ as t a u, P as t → R t a u → P (as ++ [a]) u) : P as t := by
  induction hrun with
  | nil => exact hstart
  | snoc _ hlast ih => exact hstep _ _ _ _ ih hlast

theorem mono_mem {R' : σ → α → σ → Prop} (hrun : Runs R s as t)
    (hle : ∀ t, ∀ a ∈ as, ∀ u, R t a u → R' t a u) : Runs R' s as t := by
  induction hrun with
  | nil => exact .nil
  | snoc _ hlast ih =>
    have hbefore := ih fun t a hmem => hle t a (List.mem_append_left _ hmem)
    exact hbefore.snoc (hle _ _ (List.mem_append_right _ (List.mem_singleton_self _)) _ hlast)

theorem mono {R' : σ → α → σ → Prop} (hrun : Runs R s as t)
    (hle : ∀ t a u, R t a u → R' t a u) : Runs R' s as t :=
  hrun.mono_mem fun t a _ => hle t a

theorem append {bs : List α} {u : σ} (hrun : Runs R s as t) (hmore : Runs R t bs u) :
    Runs R s (as ++ bs) u := by
  induction hmore with
  | nil => simpa using hrun
  | snoc _ hlast ih => simpa using ih.snoc hlast

theorem cons {a : α} {u : σ} (hfirst : R s a t) (hmore : Runs R t as u) : Runs R s (a :: as) u := by
  simpa using (Runs.nil.snoc hfirst).append hmore

/-- Forward simulation: when each step of a run is matched by some steps of another system, or by none, the whole run is. `E` relates the two systems and sees the labels taken so far on both sides. -/
theorem simulate {τ β : Type*} {Q : τ → β → τ → Prop} {E : List α → σ → List β → τ → Prop} {p : τ}
    (hrun : Runs R s as t) (hstart : E [] s [] p)
    (hstep : ∀ as t a u bs q, E as t bs q → R t a u →
      ∃ more q', Runs Q q more q' ∧ E (as ++ [a]) u (bs ++ more) q') :
    ∃ bs q, Runs Q p bs q ∧ E as t bs q := by
  induction hrun with
  | nil => exact ⟨[], p, .nil, hstart⟩
  | snoc _ hlast ih =>
    obtain ⟨bs, q, hbefore, hrel⟩ := ih
    obtain ⟨more, q', hmore, hrel'⟩ := hstep _ _ _ _ _ _ hrel hlast
    exact ⟨bs ++ more, q', hbefore.append hmore, hrel'⟩

/-- Which steps lose a property. `I` is the invariant that holds as long as no step was a bad one: it gives `P`, good steps keep it, and a step after which `P` still holds was good. Then `P` holds all along the labels `as` exactly when every step along them is good. -/
theorem forall_prefix_iff {P I : σ → Prop} {good : σ → α → Prop}
    (hstart : I s) (hgives : ∀ t, I t → P t)
    (hkeeps : ∀ t a u, I t → R t a u → good t a → I u)
    (hloses : ∀ t a u, I t → R t a u → P u → good t a) :
    (∀ bs u, bs <+: as → Runs R s bs u → P u) ↔
      ∀ bs a u v, bs ++ [a] <+: as → Runs R s bs u → R u a v → good u a := by
  have hof_good : ∀ {bs u}, Runs R s bs u →
      (∀ cs a v w, cs ++ [a] <+: bs → Runs R s cs v → R v a w → good v a) → I u := by
    intro bs u hbs hgood
    induction hbs with
    | nil => exact hstart
    | snoc hbefore hlast ih =>
      have hinv := ih fun cs a v w hcs => hgood cs a v w (hcs.trans (List.prefix_append _ _))
      exact hkeeps _ _ _ hinv hlast (hgood _ _ _ _ (List.prefix_refl _) hbefore hlast)
  -- a step after which `P` still holds was good, so `P` along the run keeps the invariant too
  have hof_P : ∀ {bs u}, Runs R s bs u → (∀ cs v, cs <+: bs → Runs R s cs v → P v) → I u := by
    intro bs u hbs hP
    induction hbs with
    | nil => exact hstart
    | snoc hbefore hlast ih =>
      have hinv := ih fun cs v hcs => hP cs v (hcs.trans (List.prefix_append _ _))
      have hlastP := hP _ _ (List.prefix_refl _) (hbefore.snoc hlast)
      exact hkeeps _ _ _ hinv hlast (hloses _ _ _ hinv hlast hlastP)
  constructor
  · intro hP bs a u v hpre hbs hstep
    have hinv := hof_P hbs fun cs w hcs =>
      hP cs w ((hcs.trans (List.prefix_append _ _)).trans hpre)
    exact hloses u a v hinv hstep (hP _ _ hpre (hbs.snoc hstep))
  · intro hgood bs u hpre hbs
    exact hgives u (hof_good hbs fun cs a v w hcs => hgood cs a v w (hcs.trans hpre))

end Runs

end CosUserspace
