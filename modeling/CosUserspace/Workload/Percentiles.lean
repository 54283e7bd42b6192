import CosUserspace.Library.Ranks
import CosUserspace.Workload.Results

/-!
# The percentiles of the report

`PrintStage` takes each percentile at an index that it gets by rounding a product down, of the number of latencies when that is odd and of one less when it is even. All four percentiles are of the form `1 - 1 / d`, with `d` one of `2`, `100`, `200` and `1000`. The index is the one of the nearest rank when the number of latencies is odd or a multiple of `d`, and one too low otherwise.
-/

namespace CosUserspace

namespace Workload

variable {durations : List UInt64} {d m : Nat}

/-! ### The index -/

theorem mul_pred_div (hm : 0 < m) (hd : 0 < d) : m * (d - 1) / d + 1 + (m - 1) / d = m := by
  have hdiv := Nat.div_add_mod (m - 1) d
  have hmod : (m - 1) % d < d := Nat.mod_lt _ hd
  have hle : (m - 1) / d ≤ m - 1 := Nat.div_le_self ..
  obtain ⟨k, hk⟩ : ∃ k, k + 1 + (m - 1) / d = m := ⟨m - 1 - (m - 1) / d, by omega⟩
  have hparts : m * (d - 1) + m = d * m := by
    rw [← Nat.mul_succ, Nat.succ_eq_add_one, Nat.sub_add_cancel hd, Nat.mul_comm]
  have hsplit : d * k + d + d * ((m - 1) / d) = d * m := by
    rw [← Nat.mul_succ, ← Nat.mul_add, hk]
  have hproduct : m * (d - 1) = d * k + (d - 1 - (m - 1) % d) := by omega
  have hidx : m * (d - 1) / d = k := by
    rw [hproduct, Nat.mul_add_div hd, Nat.div_eq_of_lt (by omega), Nat.add_zero]
  rw [hidx, hk]

/-- The number of latencies is odd or a multiple of `d`. -/
def Fits (d : Nat) (durations : List UInt64) : Prop := durations.length % 2 = 1 ∨ d ∣ durations.length

theorem not_dvd_odd (heven : 2 ∣ d) (hodd : m % 2 = 1) : ¬ d ∣ m := by
  intro hdvd
  have htwo : 2 ∣ m := heven.trans hdvd
  omega

theorem div_pred_of_dvd (hm : 0 < m) (hdvd : d ∣ m) : (m - 1) / d + 1 = m / d := by
  obtain ⟨k, rfl⟩ : ∃ k, m = k + 1 := ⟨m - 1, by omega⟩
  exact (Nat.succ_div_of_dvd hdvd).symm

theorem div_pred_of_not_dvd (hm : 0 < m) (hdvd : ¬ d ∣ m) : (m - 1) / d = m / d := by
  obtain ⟨k, rfl⟩ : ∃ k, m = k + 1 := ⟨m - 1, by omega⟩
  exact (Nat.succ_div_of_not_dvd hdvd).symm

/-- The index of the nearest rank. -/
theorem index_of_fits (heven : 2 ∣ d) (hd : 0 < d) (hne : durations ≠ []) (hfits : Fits d durations) :
    sizeForPercentiles durations * (d - 1) / d + 1 + durations.length / d = durations.length := by
  have hpos : 0 < durations.length := List.length_pos_of_ne_nil hne
  unfold sizeForPercentiles
  by_cases hodd : durations.length % 2 = 1
  · rw [if_neg (by omega), ← div_pred_of_not_dvd hpos (not_dvd_odd heven hodd)]
    exact mul_pred_div hpos hd
  · have hdvd : d ∣ durations.length := hfits.resolve_left hodd
    have hlast := div_pred_of_dvd hpos hdvd
    have hpred : (durations.length - 1 - 1) / d = (durations.length - 1) / d :=
      div_pred_of_not_dvd (by omega) (not_dvd_odd heven (by omega))
    have hidx := mul_pred_div (m := durations.length - 1) (by omega) hd
    rw [if_pos (by omega)]
    omega

/-- One below the index of the nearest rank. -/
theorem index_of_not_fits (heven : 2 ∣ d) (hd : 0 < d) (hne : durations ≠ []) (hfits : ¬ Fits d durations) :
    sizeForPercentiles durations * (d - 1) / d + 2 + durations.length / d = durations.length := by
  have hpos : 0 < durations.length := List.length_pos_of_ne_nil hne
  obtain ⟨hodd, hdvd⟩ := not_or.mp hfits
  have hlast := div_pred_of_not_dvd hpos hdvd
  have hpred : (durations.length - 1 - 1) / d = (durations.length - 1) / d :=
    div_pred_of_not_dvd (by omega) (not_dvd_odd heven (by omega))
  have hidx := mul_pred_div (m := durations.length - 1) (by omega) hd
  unfold sizeForPercentiles
  rw [if_pos (by omega)]
  omega

/-- The index is right, or the next higher latency is the same. -/
def RankRight (d : Nat) (durations : List UInt64) : Prop :=
  Fits d durations ∨
    durations[durations.length - 2 - durations.length / d]? = durations[durations.length - 1 - durations.length / d]?

theorem isNearestRank_iff (heven : 2 ∣ d) (hd : 0 < d) (hsorted : durations.Pairwise (· ≤ ·)) {x : UInt64}
    (hx : durations[sizeForPercentiles durations * (d - 1) / d]? = some x) :
    IsNearestRank (d - 1) d (durations.map UInt64.toNat) x.toNat ↔ RankRight d durations := by
  have hne : durations ≠ [] := fun hempty => by simp [hempty] at hx
  have hpos : 0 < durations.length := List.length_pos_of_ne_nil hne
  have hpart : durations.length / d < durations.length := Nat.div_lt_self hpos (Nat.le_of_dvd hd heven)
  obtain ⟨i, hi⟩ : ∃ i, i + 1 + durations.length / d = durations.length := by
    obtain ⟨k, hk⟩ := Nat.exists_eq_add_of_lt hpart
    exact ⟨k, by omega⟩
  have hlt : i < durations.length := by
    generalize durations.length / d = q at hi
    omega
  have hrank : IsNearestRank (d - 1) d (durations.map UInt64.toNat) durations[i].toNat := by
    have hsorted' : (durations.map UInt64.toNat).Pairwise (· ≤ ·) :=
      List.pairwise_map.mpr (hsorted.imp fun h => UInt64.le_iff_toNat_le.mp h)
    have hat := isNearestRank_allButOne hd hsorted' (i := i) (by simpa using hlt) (by simpa using hi)
    rwa [List.getElem_map] at hat
  have hvalue : durations[i]? = some durations[i] := List.getElem?_eq_getElem hlt
  by_cases hfits : Fits d durations
  · have hidx := index_of_fits heven hd hne hfits
    have hsame : sizeForPercentiles durations * (d - 1) / d = i := by omega
    rw [hsame, hvalue, Option.some.injEq] at hx
    exact ⟨fun _ => .inl hfits, fun _ => hx ▸ hrank⟩
  · have hidx := index_of_not_fits heven hd hne hfits
    have hbelow : durations.length - 2 - durations.length / d = sizeForPercentiles durations * (d - 1) / d := by
      generalize sizeForPercentiles durations * (d - 1) / d = idx at hidx
      generalize durations.length / d = q at hidx
      omega
    have habove : durations.length - 1 - durations.length / d = i := by omega
    unfold RankRight
    rw [hbelow, habove, hx, hvalue, Option.some.injEq]
    constructor
    · intro hreported
      exact .inr (UInt64.toNat_inj.mp (hreported.unique hrank))
    · intro hright
      obtain rfl := hright.resolve_left hfits
      exact hrank

/-- The median is right for every number of latencies. -/
theorem rankRight_two : RankRight 2 durations := by
  apply Or.inl
  unfold Fits
  omega

theorem exists_at (heven : 2 ∣ d) (hd : 0 < d) (hne : durations ≠ []) :
    ∃ x, durations[sizeForPercentiles durations * (d - 1) / d]? = some x := by
  have hlt : sizeForPercentiles durations * (d - 1) / d < durations.length := by
    by_cases hfits : Fits d durations
    · have hidx := index_of_fits heven hd hne hfits
      generalize durations.length / d = q at hidx
      omega
    · have hidx := index_of_not_fits heven hd hne hfits
      generalize durations.length / d = q at hidx
      omega
  exact ⟨_, List.getElem?_eq_getElem hlt⟩

/-! ### The report -/

/-- The percentiles of the report are nearest ranks of the recorded latencies. -/
structure PercentilesRight (recorded : List Nat) (results : Results Nat) : Prop where
  fifty : IsNearestRank 50 100 recorded results.fifty
  ninetynine : IsNearestRank 99 100 recorded results.ninetynine
  ninetyninefive : IsNearestRank 995 1000 recorded results.ninetyninefive
  ninetyninenine : IsNearestRank 999 1000 recorded results.ninetyninenine

/-- One percentile of the report, with its share as the source writes it. -/
theorem reported_iff {recorded : List Nat} (hsorted : durations.Pairwise (· ≤ ·))
    (hperm : (durations.map UInt64.toNat).Perm recorded) (heven : 2 ∣ d) (hd : 0 < d) {c : Nat} (hc : 0 < c) {x : UInt64}
    (hx : durations[sizeForPercentiles durations * (d - 1) / d]? = some x) :
    IsNearestRank (c * (d - 1)) (c * d) recorded x.toNat ↔ RankRight d durations := by
  rw [IsNearestRank.scale hc, ← isNearestRank_iff heven hd hsorted hx]
  exact ⟨fun h => h.perm hperm.symm, fun h => h.perm hperm⟩

theorem percentilesRight_iff {recorded : List Nat} {results : Results Nat} (hsorted : durations.Pairwise (· ≤ ·))
    (hperm : (durations.map UInt64.toNat).Perm recorded) {fifty ninetynine ninetyninefive ninetyninenine : UInt64}
    (h50 : durations[sizeForPercentiles durations * (2 - 1) / 2]? = some fifty)
    (h99 : durations[sizeForPercentiles durations * (100 - 1) / 100]? = some ninetynine)
    (h995 : durations[sizeForPercentiles durations * (200 - 1) / 200]? = some ninetyninefive)
    (h999 : durations[sizeForPercentiles durations * (1000 - 1) / 1000]? = some ninetyninenine)
    (hresults : results.fifty = fifty.toNat ∧ results.ninetynine = ninetynine.toNat ∧
      results.ninetyninefive = ninetyninefive.toNat ∧ results.ninetyninenine = ninetyninenine.toNat) :
    PercentilesRight recorded results ↔ RankRight 100 durations ∧ RankRight 200 durations ∧ RankRight 1000 durations := by
  obtain ⟨hfifty, hninetynine, hninetyninefive, hninetyninenine⟩ := hresults
  have hmedian : IsNearestRank (50 * (2 - 1)) (50 * 2) recorded fifty.toNat ↔ RankRight 2 durations :=
    reported_iff hsorted hperm (by decide) (by decide) (by decide) h50
  have hone : IsNearestRank (1 * (100 - 1)) (1 * 100) recorded ninetynine.toNat ↔ RankRight 100 durations :=
    reported_iff hsorted hperm (by decide) (by decide) (by decide) h99
  have hhalf : IsNearestRank (5 * (200 - 1)) (5 * 200) recorded ninetyninefive.toNat ↔ RankRight 200 durations :=
    reported_iff hsorted hperm (by decide) (by decide) (by decide) h995
  have htenth : IsNearestRank (1 * (1000 - 1)) (1 * 1000) recorded ninetyninenine.toNat ↔ RankRight 1000 durations :=
    reported_iff hsorted hperm (by decide) (by decide) (by decide) h999
  rw [← hone, ← hhalf, ← htenth, ← hninetynine, ← hninetyninefive, ← hninetyninenine]
  constructor
  · intro hright
    exact ⟨hright.ninetynine, hright.ninetyninefive, hright.ninetyninenine⟩
  · intro hright
    obtain ⟨hright99, hright995, hright999⟩ := hright
    have hright50 := hmedian.mpr rankRight_two
    rw [← hfifty] at hright50
    exact ⟨hright50, hright99, hright995, hright999⟩

/-- The four latencies that `PrintStage` finds, and what it then reports unless the throughput is a division by zero. -/
theorem printStage_eq (hne : durations ≠ []) :
    ∃ fifty ninetynine ninetyninefive ninetyninenine,
      durations[sizeForPercentiles durations * (2 - 1) / 2]? = some fifty ∧
      durations[sizeForPercentiles durations * (100 - 1) / 100]? = some ninetynine ∧
      durations[sizeForPercentiles durations * (200 - 1) / 200]? = some ninetyninefive ∧
      durations[sizeForPercentiles durations * (1000 - 1) / 1000]? = some ninetyninenine ∧
      ∀ runtime stage options, printStage durations runtime stage options =
        (divide durations.length (runtime / ns2s)).map fun throughput => .numbers stage
          { total := durations.length
            throughput
            min := (durations.head hne / options.divisor).toNat
            fifty := (fifty / options.divisor).toNat
            ninetynine := (ninetynine / options.divisor).toNat
            ninetyninefive := (ninetyninefive / options.divisor).toNat
            ninetyninenine := (ninetyninenine / options.divisor).toNat
            max := (durations.getLast hne / options.divisor).toNat } := by
  obtain ⟨fifty, hfifty⟩ := exists_at (d := 2) (by decide) (by decide) hne
  obtain ⟨ninetynine, hninetynine⟩ := exists_at (d := 100) (by decide) (by decide) hne
  obtain ⟨ninetyninefive, hninetyninefive⟩ := exists_at (d := 200) (by decide) (by decide) hne
  obtain ⟨ninetyninenine, hninetyninenine⟩ := exists_at (d := 1000) (by decide) (by decide) hne
  refine ⟨fifty, ninetynine, ninetyninefive, ninetyninenine, hfifty, hninetynine, hninetyninefive, hninetyninenine,
    fun runtime stage options => ?_⟩
  have hat50 : durationsAt durations (sizeForPercentiles durations * 5 / 10) = .ok fifty := by
    have hhalf : sizeForPercentiles durations * 5 / 10 = sizeForPercentiles durations * (2 - 1) / 2 := by omega
    rw [durationsAt, hhalf, hfifty]
  have hat99 : durationsAt durations (sizeForPercentiles durations * 99 / 100) = .ok ninetynine := by
    rw [durationsAt, hninetynine]
  have hat995 : durationsAt durations (sizeForPercentiles durations * 995 / 1000) = .ok ninetyninefive := by
    have hfifth : sizeForPercentiles durations * 995 / 1000 = sizeForPercentiles durations * (200 - 1) / 200 := by
      omega
    rw [durationsAt, hfifth, hninetyninefive]
  have hat999 : durationsAt durations (sizeForPercentiles durations * 999 / 1000) = .ok ninetyninenine := by
    rw [durationsAt, hninetyninenine]
  unfold printStage
  rw [dif_neg hne]
  cases divide durations.length (runtime / ns2s) with
  | error stop => rfl
  | ok throughput => simp [hat50, hat99, hat995, hat999, Options.divisor, bind, Except.bind, Except.map]

section

variable {requests : List Request} {shouldInclude : Request → Bool} {difference : Request → UInt64}

theorem getStageResults_sorted : (getStageResults requests shouldInclude difference).Pairwise (· ≤ ·) :=
  List.pairwise_insertionSort ..

theorem getStageResults_perm :
    (getStageResults requests shouldInclude difference).Perm ((requests.filter shouldInclude).map difference) :=
  List.perm_insertionSort ..

/-- **Which percentiles are right**: every index is within the list, and the four reported values are the nearest ranks of the recorded latencies if and only if for each of `100`, `200` and `1000` the number of latencies is odd or a multiple of it, or the two latencies in question are the same. -/
theorem percentiles_right_iff {options : Options} (hns : options.ns = true) (stage : String)
    (hne : getStageResults requests shouldInclude difference ≠ []) :
    (∀ runtime, printStage (getStageResults requests shouldInclude difference) runtime stage options ≠
      .error .outOfRange) ∧
    ((∀ runtime results, printStage (getStageResults requests shouldInclude difference) runtime stage options =
        .ok (.numbers stage results) →
        PercentilesRight (((requests.filter shouldInclude).map difference).map UInt64.toNat) results) ↔
      RankRight 100 (getStageResults requests shouldInclude difference) ∧
      RankRight 200 (getStageResults requests shouldInclude difference) ∧
      RankRight 1000 (getStageResults requests shouldInclude difference)) := by
  have hsorted : (getStageResults requests shouldInclude difference).Pairwise (· ≤ ·) := getStageResults_sorted
  have hperm : ((getStageResults requests shouldInclude difference).map UInt64.toNat).Perm
      (((requests.filter shouldInclude).map difference).map UInt64.toNat) := getStageResults_perm.map _
  generalize getStageResults requests shouldInclude difference = durations at *
  generalize ((requests.filter shouldInclude).map difference).map UInt64.toNat = recorded at *
  obtain ⟨fifty, ninetynine, ninetyninefive, ninetyninenine, h50, h99, h995, h999, hreport⟩ := printStage_eq hne
  have hdivisor : ∀ x : UInt64, (x / options.divisor).toNat = x.toNat := by
    intro x
    rw [Options.divisor, if_pos hns, UInt64.div_one]
  refine ⟨fun runtime => ?_, fun hright => ?_, fun hright runtime results hresults => ?_⟩
  · rw [hreport, divide]
    split
    · exact fun h => ReportStop.noConfusion (Except.error.inj h)
    · exact fun h => by cases h
  · have hone : divide durations.length (ns2s / ns2s) = .ok durations.length := by
      simp [divide, ns2s]
    have hreported := hreport ns2s stage options
    rw [hone] at hreported
    exact (percentilesRight_iff hsorted hperm h50 h99 h995 h999 ⟨hdivisor _, hdivisor _, hdivisor _, hdivisor _⟩).mp
      (hright ns2s _ hreported)
  · rw [hreport, divide] at hresults
    split at hresults
    · cases hresults
    · cases hresults
      exact (percentilesRight_iff hsorted hperm h50 h99 h995 h999
        ⟨hdivisor _, hdivisor _, hdivisor _, hdivisor _⟩).mpr hright

end

/-- A request that takes this long. -/
def requestOf (duration : UInt64) : Request := ⟨⟨0, 0, 0, .get 0⟩, 0, duration⟩

/-- An odd number of latencies. -/
theorem percentiles_right_iff_three :
    ∃ results, printStage (getStageResults [requestOf 1000, requestOf 3000, requestOf 2000] (fun _ => true)
        fun r => r.requestFinished - r.requestGenerated) 2000000000 "Total" {} = .ok (.numbers "Total" results) ∧
      PercentilesRight [1000, 3000, 2000] results := by
  refine ⟨⟨3, 1, 1000, 2000, 3000, 3000, 3000, 3000⟩, by decide, ?_⟩
  have hright : ∀ runtime results, printStage (getStageResults [requestOf 1000, requestOf 3000, requestOf 2000]
      (fun _ => true) fun r => r.requestFinished - r.requestGenerated) runtime "Total" {} =
        .ok (.numbers "Total" results) → PercentilesRight [1000, 3000, 2000] results :=
    (percentiles_right_iff rfl "Total" (by decide)).2.mpr
      ⟨.inl (.inl (by decide)), .inl (.inl (by decide)), .inl (.inl (by decide))⟩
  exact hright 2000000000 _ (by decide)

/-- Of two latencies the lower one is reported for each of the high percentiles. -/
theorem tail_understated :
    ∃ results, printStage (getStageResults [requestOf 1000, requestOf 2000] (fun _ => true)
        fun r => r.requestFinished - r.requestGenerated) 2000000000 "Total" {} = .ok (.numbers "Total" results) ∧
      results.ninetynine = 1000 ∧ results.ninetyninefive = 1000 ∧ results.ninetyninenine = 1000 ∧
      IsNearestRank 99 100 [1000, 2000] 2000 ∧ IsNearestRank 995 1000 [1000, 2000] 2000 ∧
      IsNearestRank 999 1000 [1000, 2000] 2000 ∧ ¬ PercentilesRight [1000, 2000] results := by
  refine ⟨⟨2, 1, 1000, 1000, 1000, 1000, 1000, 2000⟩, by decide, rfl, rfl, rfl, by decide, by decide, by decide, ?_⟩
  intro hright
  have hwrong : ¬ IsNearestRank 99 100 [1000, 2000] 1000 := by decide
  exact hwrong hright.ninetynine

end Workload

end CosUserspace
