import CosUserspace.Workload.Percentiles

/-!
# The throughput of the report

`PrintResults` subtracts the discarded time from the runtime, and `PrintStage` divides the number of requests by the whole seconds of what is left. The subtraction wraps around for a shorter runtime, the division is one by zero for less than a second, and a fraction of a second that is cut off can raise the quotient.
-/

namespace CosUserspace

namespace Workload

/-! ### The quotient -/

/-- Over whole units nothing is cut off. -/
theorem div_div_of_dvd {n t unit : Nat} (hunit : 0 < unit) (hwhole : unit ∣ t) : n / (t / unit) = n * unit / t := by
  obtain ⟨whole, rfl⟩ := hwhole
  rw [Nat.mul_div_cancel_left _ hunit, Nat.mul_comm n, Nat.mul_div_mul_left _ _ hunit]

/-- Over more units than `n` both quotients are `0`. -/
theorem div_div_of_lt {n t unit : Nat} (hunit : 0 < unit) (hlong : (n + 1) * unit ≤ t) :
    n / (t / unit) = n * unit / t := by
  have hwhole : n < t / unit := (Nat.le_div_iff_mul_le hunit).mpr hlong
  have hlt : n * unit < t := Nat.lt_of_lt_of_le (Nat.mul_lt_mul_of_pos_right (Nat.lt_succ_self n) hunit) hlong
  rw [Nat.div_eq_of_lt hwhole, Nat.div_eq_of_lt hlt]

/-- When a part of a unit is cut off, a multiple of the whole units gets too large a quotient. -/
theorem div_div_ne {n t unit : Nat} (hpos : 0 < n) (hcut : ¬ unit ∣ t) (hle : unit ≤ t)
    (hmultiple : t / unit ∣ n) : n / (t / unit) ≠ n * unit / t := by
  obtain ⟨rate, rfl⟩ := hmultiple
  have hunit : 0 < unit := Nat.pos_of_ne_zero fun hzero => by simp [hzero] at hpos
  have hwhole : 0 < t / unit := Nat.div_pos hle hunit
  have hrate : 0 < rate := Nat.pos_of_mul_pos_left hpos
  have hshort : t / unit * unit < t :=
    Nat.lt_of_le_of_ne (Nat.div_mul_le_self t unit) fun hsame => hcut (Nat.dvd_of_mod_eq_zero (by
      have hmod := Nat.div_add_mod' t unit
      omega))
  rw [Nat.mul_div_cancel_left _ hwhole]
  apply Nat.ne_of_gt
  rw [Nat.div_lt_iff_lt_mul (hunit.trans_le hle)]
  calc t / unit * rate * unit
      = rate * (t / unit * unit) := by rw [Nat.mul_comm (t / unit), Nat.mul_assoc]
    _ < rate * t := Nat.mul_lt_mul_of_pos_left hshort hrate

/-! ### One stage -/

variable {options : Options} {kept : List Request} {tracked runtime : UInt64} {startTime : Int64}
  {requests : List (UInt32 × List Request)} {stage : StageArguments} {line : Line}

/-- The line of a stage without requests, or with the number of its requests and their throughput over `t` nanoseconds. -/
def ThroughputLine (kept : List Request) (t : Nat) (stage : StageArguments) (line : Line) : Prop :=
  (stage.durations kept = [] → ∃ results, line = .strings stage.name results) ∧
  (stage.durations kept ≠ [] → ∃ results, line = .numbers stage.name results ∧
    results.total = (stage.durations kept).length ∧
    (0 < t → results.throughput = (stage.durations kept).length * ns2s.toNat / t))

/-- The stage has no requests; or a second has been tracked, and a whole number of seconds or more seconds than there are requests. -/
def WholeOrFew (kept : List Request) (t : Nat) (stage : StageArguments) : Prop :=
  stage.durations kept = [] ∨
    ns2s.toNat ≤ t ∧ (ns2s.toNat ∣ t ∨ ((stage.durations kept).length + 1) * ns2s.toNat ≤ t)

instance (kept : List Request) (t : Nat) (stage : StageArguments) : Decidable (WholeOrFew kept t stage) :=
  inferInstanceAs (Decidable (_ ∨ _ ∧ (_ ∨ _)))

/-- What a right line needs: no requests; or a second tracked, and no fraction cut off a time whose whole seconds divide the number of requests. -/
def NotCut (kept : List Request) (t : Nat) (stage : StageArguments) : Prop :=
  stage.durations kept = [] ∨
    ns2s.toNat ≤ t ∧ (ns2s.toNat ∣ t ∨ ¬ t / ns2s.toNat ∣ (stage.durations kept).length)

theorem divide_ns2s_ok {n : Nat} (hsecond : ns2s.toNat ≤ tracked.toNat) :
    divide n (tracked / ns2s) = .ok (n / (tracked.toNat / ns2s.toNat)) := by
  have hpos : 0 < tracked.toNat / ns2s.toNat := Nat.div_pos hsecond (by decide)
  have hne : tracked / ns2s ≠ 0 := by
    intro hzero
    have hquotient : (tracked / ns2s).toNat = 0 := by rw [hzero]; rfl
    rw [UInt64.toNat_div] at hquotient
    omega
  rw [divide, if_neg hne, UInt64.toNat_div]

theorem divide_ns2s_error {n : Nat} (hsecond : tracked.toNat < ns2s.toNat) :
    divide n (tracked / ns2s) = .error .divisionByZero := by
  have hzero : tracked / ns2s = 0 := by
    rw [← UInt64.toNat_inj, UInt64.toNat_div]
    exact Nat.div_eq_of_lt hsecond
  rw [divide, if_pos hzero]

theorem handleStage_iff : (∃ line, handleStage stage kept tracked options = .ok line ∧
    ThroughputLine kept tracked.toNat stage line) ↔
    stage.durations kept = [] ∨ ns2s.toNat ≤ tracked.toNat ∧
      (stage.durations kept).length / (tracked.toNat / ns2s.toNat) =
        (stage.durations kept).length * ns2s.toNat / tracked.toNat := by
  have hpos : 0 < ns2s.toNat := by decide
  by_cases hempty : stage.durations kept = []
  · have hline : handleStage stage kept tracked options = .ok (.strings stage.name
        ⟨"-", "-", "-", "-", "-", "-", "-", "-"⟩) := by
      rw [handleStage, printStage, dif_pos hempty]
    exact ⟨fun _ => .inl hempty, fun _ => ⟨_, hline, fun _ => ⟨_, rfl⟩, fun hne => absurd hempty hne⟩⟩
  obtain ⟨_, _, _, _, -, -, -, -, hreport⟩ := printStage_eq hempty
  have hhandle := hreport tracked stage.name options
  rw [← handleStage] at hhandle
  by_cases hsecond : ns2s.toNat ≤ tracked.toNat
  · rw [divide_ns2s_ok hsecond] at hhandle
    constructor
    · intro hright
      obtain ⟨line, hline, -, hnumbers⟩ := hright
      obtain ⟨results, rfl, -, hthroughput⟩ := hnumbers hempty
      cases hhandle.symm.trans hline
      exact .inr ⟨hsecond, hthroughput (hpos.trans_le hsecond)⟩
    · intro hsame
      obtain ⟨-, hquotient⟩ := hsame.resolve_left hempty
      exact ⟨_, hhandle, fun h => absurd h hempty, fun _ => ⟨_, rfl, rfl, fun _ => hquotient⟩⟩
  · rw [divide_ns2s_error (Nat.lt_of_not_le hsecond)] at hhandle
    constructor
    · intro hright
      obtain ⟨line, hline, -⟩ := hright
      cases hhandle.symm.trans hline
    · intro hsame
      exact absurd (hsame.resolve_left hempty).1 hsecond

theorem WholeOrFew.line_right (h : WholeOrFew kept tracked.toNat stage) :
    ∃ line, handleStage stage kept tracked options = .ok line ∧ ThroughputLine kept tracked.toNat stage line := by
  have hpos : 0 < ns2s.toNat := by decide
  refine handleStage_iff.mpr (h.imp_right fun hsecond => ⟨hsecond.1, ?_⟩)
  rcases hsecond.2 with hwhole | hfew
  · exact div_div_of_dvd hpos hwhole
  · exact div_div_of_lt hpos hfew

theorem notCut_of_line_right
    (h : ∃ line, handleStage stage kept tracked options = .ok line ∧ ThroughputLine kept tracked.toNat stage line) :
    NotCut kept tracked.toNat stage := by
  rcases handleStage_iff.mp h with hempty | ⟨hsecond, hsame⟩
  · exact .inl hempty
  refine or_iff_not_imp_left.mpr fun hne => ⟨hsecond, or_iff_not_imp_left.mpr fun hcut hdvd => ?_⟩
  exact div_div_ne (List.length_pos_iff.mpr hne) hcut hsecond hdvd hsame

/-! ### The report -/

theorem handleStages_iff {P : StageArguments → Line → Prop} (rows : List StageArguments) :
    (∃ lines, handleStages kept tracked options rows = .ok lines ∧ List.Forall₂ P rows lines) ↔
      ∀ stage ∈ rows, ∃ line, handleStage stage kept tracked options = .ok line ∧ P stage line := by
  induction rows with
  | nil => exact ⟨fun _ _ h => absurd h List.not_mem_nil, fun _ => ⟨[], rfl, .nil⟩⟩
  | cons stage rows ih =>
    rw [List.forall_mem_cons, ← ih]
    constructor
    · intro hlines
      obtain ⟨lines, hlines, hP⟩ := hlines
      rw [handleStages] at hlines
      cases hline : handleStage stage kept tracked options with
      | error stop => simp [hline, bind, Except.bind] at hlines
      | ok line =>
        cases hrest : handleStages kept tracked options rows with
        | error stop => simp [hline, hrest, bind, Except.bind] at hlines
        | ok rest =>
          simp only [hline, hrest, bind, Except.bind, Except.ok.injEq] at hlines
          subst hlines
          obtain ⟨hfirst, hothers⟩ := List.forall₂_cons.mp hP
          exact ⟨⟨line, rfl, hfirst⟩, rest, rfl, hothers⟩
    · intro hboth
      obtain ⟨⟨line, hline, hfirst⟩, rest, hrest, hothers⟩ := hboth
      exact ⟨line :: rest, by simp [handleStages, hline, hrest, bind, Except.bind], .cons hfirst hothers⟩

theorem printResults_iff {lines : List Line} :
    printResults options startTime requests runtime =
        .ok (.text "Stats:" :: .text "All:" :: printPrettyPreface options :: lines) ↔
      handleStages (filterRequests requests fun r => !shouldDiscard options startTime r)
        (runtime - options.discarded) options (stages options) = .ok lines := by
  have hname : "All" ++ ":" = "All:" := by decide
  simp only [printResults, printResultsHelper, print, bind, Except.bind]
  cases handleStages (filterRequests requests fun r => !shouldDiscard options startTime r)
      (runtime - options.discarded) options (stages options) with
  | error stop => simp
  | ok lines => simp [hname]

/-- The report does not break off once a second is tracked. -/
theorem printResults_ok (hsecond : ns2s ≤ runtime - options.discarded) :
    ∃ lines, printResults options startTime requests runtime = .ok lines := by
  have hstage : ∀ stage ∈ stages options, ∃ line, handleStage stage
      (filterRequests requests fun r => !shouldDiscard options startTime r) (runtime - options.discarded) options =
      .ok line ∧ True := by
    intro stage _
    by_cases hempty : stage.durations (filterRequests requests fun r => !shouldDiscard options startTime r) = []
    · exact ⟨_, by rw [handleStage, printStage, dif_pos hempty], trivial⟩
    · obtain ⟨_, _, _, _, -, -, -, -, hreport⟩ := printStage_eq hempty
      have hhandle := hreport (runtime - options.discarded) stage.name options
      rw [divide_ns2s_ok (UInt64.le_iff_toNat_le.mp hsecond), ← handleStage] at hhandle
      exact ⟨_, hhandle, trivial⟩
  obtain ⟨lines, hlines, -⟩ := (handleStages_iff (P := fun _ _ => True) (stages options)).mpr hstage
  exact ⟨_, printResults_iff.mpr hlines⟩

/-- What the report is to do for this runtime: the subtraction does not wrap around, nothing is divided by zero, and each stage with requests has the throughput over the tracked time. -/
structure ThroughputRight (options : Options) (startTime : Int64) (requests : List (UInt32 × List Request))
    (runtime : UInt64) : Prop where
  tracked : ((runtime - options.discarded).toNat : Int) = runtime.toNat - options.discarded.toNat
  report : ∃ lines, printResults options startTime requests runtime =
      .ok (.text "Stats:" :: .text "All:" :: printPrettyPreface options :: lines) ∧
    List.Forall₂ (ThroughputLine (filterRequests requests fun r => !shouldDiscard options startTime r)
      (runtime.toNat - options.discarded.toNat)) (stages options) lines

theorem tracked_iff {discarded : UInt64} :
    ((runtime - discarded).toNat : Int) = runtime.toNat - discarded.toNat ↔ discarded.toNat ≤ runtime.toNat := by
  constructor
  · intro hsame
    omega
  · intro hle
    rw [UInt64.toNat_sub_of_le _ _ (UInt64.le_iff_toNat_le.mpr hle), Int.ofNat_sub hle]

theorem throughputRight_iff :
    ThroughputRight options startTime requests runtime ↔
      options.discarded.toNat ≤ runtime.toNat ∧
      ∀ stage ∈ stages options, ∃ line,
        handleStage stage (filterRequests requests fun r => !shouldDiscard options startTime r)
          (runtime - options.discarded) options = .ok line ∧
        ThroughputLine (filterRequests requests fun r => !shouldDiscard options startTime r)
          (runtime.toNat - options.discarded.toNat) stage line := by
  constructor
  · intro hright
    obtain ⟨lines, hlines, hall⟩ := hright.report
    exact ⟨tracked_iff.mp hright.tracked, (handleStages_iff _).mp ⟨lines, printResults_iff.mp hlines, hall⟩⟩
  · intro hboth
    obtain ⟨hle, hstages⟩ := hboth
    obtain ⟨lines, hlines, hall⟩ := (handleStages_iff _).mpr hstages
    exact ⟨tracked_iff.mpr hle, lines, printResults_iff.mpr hlines, hall⟩

/-- **When the throughput is right**: if the runtime is at least the discarded time, and each stage that is printed has no requests, or a second has been tracked, and either whole seconds only or more of them than there are requests. Conversely a right report needs the discarded time, and of each stage with requests a second tracked and, when a fraction is cut off, a number of requests that the whole seconds do not divide. -/
theorem throughput_right :
    (options.discarded.toNat ≤ runtime.toNat → (∀ stage ∈ stages options,
        WholeOrFew (filterRequests requests fun r => !shouldDiscard options startTime r)
          (runtime.toNat - options.discarded.toNat) stage) →
      ThroughputRight options startTime requests runtime) ∧
    (ThroughputRight options startTime requests runtime → options.discarded.toNat ≤ runtime.toNat ∧
      ∀ stage ∈ stages options,
        NotCut (filterRequests requests fun r => !shouldDiscard options startTime r)
          (runtime.toNat - options.discarded.toNat) stage) := by
  constructor
  · intro hle hstages
    have htracked := UInt64.toNat_sub_of_le _ _ (UInt64.le_iff_toNat_le.mpr hle)
    rw [← htracked] at hstages
    rw [throughputRight_iff, ← htracked]
    exact ⟨hle, fun stage hmem => (hstages stage hmem).line_right⟩
  · intro hright
    obtain ⟨hle, hlines⟩ := throughputRight_iff.mp hright
    have htracked := UInt64.toNat_sub_of_le _ _ (UInt64.le_iff_toNat_le.mpr hle)
    rw [← htracked] at hlines ⊢
    exact ⟨hle, fun stage hmem => notCut_of_line_right (hlines stage hmem)⟩

/-- A request that is generated as the discarded second ends, in an experiment that starts at `0`. -/
def lateRequest : Request := ⟨⟨1000000000, 1000000001, 1000000002, .get 0⟩, 1000000003, 1000000004⟩

/-- Two seconds are tracked; and then three and a half, for one request. -/
theorem throughput_right_late :
    ThroughputRight {} 0 [(7, [lateRequest])] 3000000000 ∧ ThroughputRight {} 0 [(7, [lateRequest])] 4500000000 :=
  ⟨throughput_right.1 (by decide) (by decide), throughput_right.1 (by decide) (by decide)⟩

/-- Of three experiments that a signal ends, the first one gets a tracked time of more than 500 years, the second one a division by zero, and the third one a throughput of `3` for `3` requests in almost two seconds. -/
theorem short_runs_wrong :
    ((500000000 : UInt64) - Options.discarded {}).toNat = 18446744073209551616 ∧
    ¬ ThroughputRight {} 0 [] 500000000 ∧
    printResults {} 0 [(7, [lateRequest])] 1500000000 = .error .divisionByZero ∧
    ¬ ThroughputRight {} 0 [(7, [lateRequest])] 1500000000 ∧
    printStage [4, 4, 4] (2999999999 - Options.discarded {}) "Total" {} =
      .ok (.numbers "Total" ⟨3, 3, 4, 4, 4, 4, 4, 4⟩) ∧
    3 * 1000000000 / 1999999999 = 1 := by
  refine ⟨by decide, fun hright => ?_, by decide, fun hright => ?_, by decide, by decide⟩
  · have hle := tracked_iff.mp hright.tracked
    exact absurd hle (by decide)
  · obtain ⟨lines, hlines, -⟩ := hright.report
    have herror : printResults {} 0 [(7, [lateRequest])] 1500000000 = .error .divisionByZero := by decide
    rw [herror] at hlines
    cases hlines

end Workload

end CosUserspace
