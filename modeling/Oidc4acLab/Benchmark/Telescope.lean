import Oidc4acLab.Benchmark.Pairing
import Mathlib.Algebra.BigOperators.Ring.Finset
import Mathlib.Algebra.BigOperators.Group.List.Lemmas
import Mathlib.Tactic.FieldSimp
import Mathlib.Tactic.Ring

/-! # The steps of the chain add up

Where every condition of the chain has samples in the same rounds, the mean difference of
a step is a mean over all rounds of all runs. Such means are additive in the values, so
the steps from one condition to another add up to the difference of the two, and a run
counts with its number of rounds.
-/
namespace Oidc4acLab.Benchmark
open Collections Fallible

/-- `mean_difference` and `per_run` of a step before they are rounded. -/
def unroundedMetric (runs : List RunFile) (kind : Kind) (step : String × String) (metric : Metric) :
    Except Failure (ℚ × List ℚ) := do
  let paired ← runs.mapM (differences kind step.1 step.2 metric)
  let all ← mean paired.flatten
  let perRun ← paired.mapM mean
  return (all,perRun)

/-- The mean of the samples of one round. -/
def roundMean (samples : List Sample) (metric : Metric) (r : ℕ) : ℚ :=
  average ((samples.filter fun s => s.round = r).map fun s => s.measured metric)

def RunFile.roundMean (run : RunFile) (kind : Kind) (metric : Metric) (name : String) (r : ℕ) : ℚ :=
  Benchmark.roundMean (((run.samples kind).lookup name).getD []) metric r

/-- All conditions have samples in the same rounds of the run, which are these. -/
structure Covered (names : List String) (kind : Kind) (run : RunFile) (rounds : Finset ℕ) : Prop where
  nonempty : rounds.Nonempty
  recorded : ∀ name ∈ names, ∃ samples, run.recorded kind name = .ok samples ∧
    (samples.map Sample.round).toFinset = rounds

/-- The mean over all rounds of all runs. -/
def meanOver (runs : List RunFile) (rounds : RunFile → Finset ℕ) (f : RunFile → ℕ → ℚ) : ℚ :=
  (runs.map fun run => ∑ r ∈ rounds run, f run r).sum/(runs.map fun run => ((rounds run).card:ℚ)).sum

theorem roundMeans_eq (samples : List Sample) (metric : Metric) : ∃ means, roundMeans samples metric = .ok means ∧
    (means.map Prod.fst).Nodup ∧ (means.map Prod.fst).toFinset = (samples.map Sample.round).toFinset ∧
      ∀ r ∈ means.map Prod.fst, means.lookup r = some (roundMean samples metric r) := by
  let groups := group Sample.round (fun s => s.measured metric) samples
  have hkeys : (groups.map fun e => (e.1,average e.2)).map Prod.fst = keys groups := by
    rw [List.map_map]
    rfl
  have hmem : ∀ r, r ∈ keys groups ↔ ∃ s ∈ samples, s.round = r := fun r => mem_keys_group
  refine ⟨groups.map fun e => (e.1,average e.2),roundMeans_grouped samples metric,?_,?_,?_⟩
  · rw [hkeys]
    exact nodup_keys_group _ _ _
  · ext r
    rw [hkeys,List.mem_toFinset,List.mem_toFinset,hmem,List.mem_map]
  · intro r hr
    rw [hkeys] at hr
    obtain ⟨s,hs,hround⟩ := (hmem r).mp hr
    have hfilter : samples.filter (fun s => s.round = r) ≠ [] :=
      List.ne_nil_of_mem (List.mem_filter.mpr ⟨hs,by simpa using hround⟩)
    rw [lookup_map,lookup_group,if_neg hfilter]
    rfl

theorem roundMean_recorded {run : RunFile} {kind : Kind} {name : String} {samples : List Sample}
    (h : run.recorded kind name = .ok samples) (metric : Metric) (r : ℕ) :
    run.roundMean kind metric name r = roundMean samples metric r := by
  rw [RunFile.recorded] at h
  rw [RunFile.roundMean]
  cases hl : (run.samples kind).lookup name with
  | none =>
    rw [hl] at h
    cases h
  | some s =>
    rw [hl] at h
    cases h
    rfl

theorem differences_covered {names : List String} {kind : Kind} {run : RunFile} {rounds : Finset ℕ}
    (h : Covered names kind run rounds) {before after : String} (hb : before ∈ names) (ha : after ∈ names)
    (metric : Metric) : ∃ order : List ℕ, order.Nodup ∧ order.toFinset = rounds ∧
      differences kind before after metric run =
        .ok (order.map fun r => run.roundMean kind metric after r-run.roundMean kind metric before r) := by
  obtain ⟨sb,hsb,hrb⟩ := h.recorded before hb
  obtain ⟨sa,hsa,hra⟩ := h.recorded after ha
  obtain ⟨first,hfirst,hnodup,hfirstRounds,hfirstLookup⟩ := roundMeans_eq sb metric
  obtain ⟨second,hsecond,-,hsecondRounds,hsecondLookup⟩ := roundMeans_eq sa metric
  let order := (first.map Prod.fst).mergeSort fun a b => decide (a ≤ b)
  have hperm : order.Perm (first.map Prod.fst) := List.mergeSort_perm _ _
  have hsame : (first.map Prod.fst).toFinset = (second.map Prod.fst).toFinset := by
    rw [hfirstRounds,hsecondRounds,hrb,hra]
  refine ⟨order,hperm.nodup_iff.mpr hnodup,?_,bind_eq_ok.mpr ⟨sb,hsb,bind_eq_ok.mpr ⟨first,hfirst,bind_eq_ok.mpr
    ⟨sa,hsa,bind_eq_ok.mpr ⟨second,hsecond,?_⟩⟩⟩⟩⟩
  · rw [List.toFinset_eq_of_perm _ _ hperm,hfirstRounds,hrb]
  · rw [mapM_eq_ok,List.forall₂_map_right_iff,List.forall₂_same]
    intro r hr
    have hr1 : r ∈ first.map Prod.fst := hperm.mem_iff.mp hr
    have hr2 : r ∈ second.map Prod.fst := by
      rw [← List.mem_toFinset,← hsame,List.mem_toFinset]
      exact hr1
    rw [hfirstLookup r hr1,hsecondLookup r hr2,roundMean_recorded hsb,roundMean_recorded hsa]

section Steps
variable {runs : List RunFile} {kind : Kind} {names : List String} {rounds : RunFile → Finset ℕ}

def roundDifference (kind : Kind) (metric : Metric) (step : String × String) (run : RunFile) (r : ℕ) : ℚ :=
  run.roundMean kind metric step.2 r-run.roundMean kind metric step.1 r

theorem paired_covered (hrounds : ∀ run ∈ runs, Covered names kind run (rounds run)) {step : String × String}
    (hb : step.1 ∈ names) (ha : step.2 ∈ names) (metric : Metric) :
    ∃ orders : List (List ℕ), List.Forall₂ (fun run order => order.Nodup ∧ order.toFinset = rounds run ∧
      differences kind step.1 step.2 metric run = .ok (order.map (roundDifference kind metric step run)))
        runs orders :=
  exists_forall₂ fun run hrun => differences_covered (hrounds run hrun) hb ha metric

/-- A step's mean is one over all rounds of all runs, and a run's mean one over its rounds. -/
theorem unroundedMetric_eq (hruns : runs ≠ []) (hrounds : ∀ run ∈ runs, Covered names kind run (rounds run))
    {step : String × String} (hb : step.1 ∈ names) (ha : step.2 ∈ names) (metric : Metric) :
    unroundedMetric runs kind step metric = .ok (meanOver runs rounds (roundDifference kind metric step),
      runs.map fun run => (∑ r ∈ rounds run, roundDifference kind metric step run r)/(rounds run).card) := by
  obtain ⟨orders,horders⟩ := paired_covered hrounds hb ha metric
  have hpaired : ∃ paired, runs.mapM (differences kind step.1 step.2 metric) = .ok paired ∧
      paired.map List.sum = runs.map (fun run => ∑ r ∈ rounds run, roundDifference kind metric step run r) ∧
      paired.map (fun ds => (ds.length:ℚ)) = runs.map (fun run => ((rounds run).card:ℚ)) ∧
      (∀ ds ∈ paired, ds ≠ []) ∧
      paired.map average = runs.map fun run =>
        (∑ r ∈ rounds run, roundDifference kind metric step run r)/(rounds run).card := by
    clear hruns
    induction horders with
    | nil => exact ⟨[],rfl,rfl,rfl,by simp,rfl⟩
    | @cons run order runs orders h _ ih =>
      obtain ⟨hnodup,hset,hok⟩ := h
      obtain ⟨paired,hp,hsum,hlen,hne,havg⟩ := ih fun run' hrun' => hrounds run' (List.mem_cons_of_mem run hrun')
      have hs : (order.map (roundDifference kind metric step run)).sum =
          ∑ r ∈ rounds run, roundDifference kind metric step run r := by
        rw [← hset,List.sum_toFinset _ hnodup]
      have hl : ((order.map (roundDifference kind metric step run)).length:ℚ) = (rounds run).card := by
        rw [List.length_map,← hset,List.toFinset_card_of_nodup hnodup]
      have hrun : order.map (roundDifference kind metric step run) ≠ [] := by
        intro h0
        rw [h0] at hl
        have hpos := (hrounds run List.mem_cons_self).nonempty.card_pos
        have hzero : (rounds run).card = 0 := by exact_mod_cast hl.symm
        omega
      refine ⟨_ :: paired,mapM_eq_ok.mpr (.cons hok (mapM_eq_ok.mp hp)),?_,?_,List.forall_mem_cons.mpr ⟨hrun,hne⟩,?_⟩
      · rw [List.map_cons,List.map_cons,hs,hsum]
      · rw [List.map_cons,List.map_cons,hl,hlen]
      · rw [List.map_cons,List.map_cons,average,hs,hl,havg]
  obtain ⟨paired,hp,hsum,hlen,hne,havg⟩ := hpaired
  have hflat : paired.flatten ≠ [] := by
    have hpairedNe : paired ≠ [] := by
      rintro rfl
      cases mapM_eq_ok.mp hp
      exact hruns rfl
    obtain ⟨ds,hds⟩ := List.exists_mem_of_ne_nil _ hpairedNe
    exact fun h0 => hne ds hds (List.flatten_eq_nil_iff.mp h0 ds hds)
  have hall : mean paired.flatten = .ok (meanOver runs rounds (roundDifference kind metric step)) := by
    have hcount : (paired.flatten.length:ℚ) = (paired.map fun ds => (ds.length:ℚ)).sum := by
      rw [List.length_flatten,Nat.cast_list_sum,List.map_map]
      rfl
    rw [mean_ok hflat,average,List.sum_flatten,hcount,hsum,hlen,meanOver]
  have hperRun : paired.mapM mean = .ok (paired.map average) := by
    rw [mapM_eq_ok,List.forall₂_map_right_iff,List.forall₂_same]
    exact fun ds hds => mean_ok (hne ds hds)
  rw [← havg]
  exact bind_eq_ok.mpr ⟨paired,hp,bind_eq_ok.mpr ⟨_,hall,bind_eq_ok.mpr ⟨_,hperRun,rfl⟩⟩⟩

theorem summarizeMetric_rounds {step : String × String} {rng : Random} {metric : Metric} {at' : ℕ}
    {r : StepMetric × ℕ} (h : summarizeMetric runs kind step.1 step.2 rng metric at' = .ok r) :
    ∃ u, unroundedMetric runs kind step metric = .ok u ∧
      r.1.meanDifference = roundTo 3 u.1 ∧ r.1.perRun = u.2.map (roundTo 3) := by
  obtain ⟨paired,hp,h⟩ := bind_eq_ok.mp h
  obtain ⟨interval,-,h⟩ := bind_eq_ok.mp h
  obtain ⟨all,hall,h⟩ := bind_eq_ok.mp h
  obtain ⟨perRun,hperRun,h⟩ := bind_eq_ok.mp h
  obtain ⟨halves,-,h⟩ := bind_eq_ok.mp h
  cases h
  exact ⟨(all,perRun),bind_eq_ok.mpr ⟨paired,hp,bind_eq_ok.mpr ⟨all,hall,bind_eq_ok.mpr ⟨perRun,hperRun,rfl⟩⟩⟩,
    rfl,rfl⟩

theorem meanOver_sub (runs : List RunFile) (rounds : RunFile → Finset ℕ) (f g : RunFile → ℕ → ℚ) :
    (meanOver runs rounds fun run r => f run r-g run r) = meanOver runs rounds f-meanOver runs rounds g := by
  have hsum : (runs.map fun run => ∑ r ∈ rounds run, (f run r-g run r)).sum =
      (runs.map fun run => ∑ r ∈ rounds run, f run r).sum-(runs.map fun run => ∑ r ∈ rounds run, g run r).sum := by
    induction runs with
    | nil => simp
    | cons run runs ih =>
      rw [List.map_cons,List.map_cons,List.map_cons,List.sum_cons,List.sum_cons,List.sum_cons,ih,
        Finset.sum_sub_distrib]
      ring
  rw [meanOver,meanOver,meanOver,hsum,sub_div]

end Steps

theorem steps_cons_cons (a b : String) (path : List String) : steps (a :: b :: path) = (a,b) :: steps (b :: path) := rfl

theorem sum_steps (g : String → ℚ) (a : String) (path : List String) :
    ((steps (a :: path)).map fun step => g step.2-g step.1).sum = g ((a :: path).getLast (List.cons_ne_nil a path))-g a := by
  induction path generalizing a with
  | nil => simp [steps]
  | cons b path ih =>
    rw [steps_cons_cons,List.map_cons,List.sum_cons,ih b,List.getLast_cons_cons]
    ring

/-- The steps from one condition to another add up to the mean difference of the two over all rounds of all
runs, and a step's mean is that of its runs weighted by their numbers of rounds. -/
theorem steps_telescope {runs : List RunFile} {kind : Kind} {names : List String}
    (hchain : chain runs kind = .ok names) {rounds : RunFile → Finset ℕ}
    (hrounds : ∀ run ∈ runs, Covered names kind run (rounds run)) (metric : Metric) :
    (∀ step ∈ steps names, ∃ m, ∃ perRun : RunFile → ℚ,
      unroundedMetric runs kind step metric = .ok (m,runs.map perRun) ∧
      m = (runs.map fun run => perRun run*(rounds run).card).sum/(runs.map fun run => ((rounds run).card:ℚ)).sum ∧
      ∀ rng at' r, summarizeMetric runs kind step.1 step.2 rng metric at' = .ok r →
        r.1.meanDifference = roundTo 3 m ∧ r.1.perRun = (runs.map perRun).map (roundTo 3)) ∧
    ∀ path : List String, (hne : path ≠ []) → path <:+: names → ∃ ms,
      (steps path).mapM (fun step => (unroundedMetric runs kind step metric).map Prod.fst) = .ok ms ∧
      ms.sum = meanOver runs rounds fun run r =>
        run.roundMean kind metric (path.getLast hne) r-run.roundMean kind metric (path.head hne) r := by
  have hruns : runs ≠ [] := by
    rintro rfl
    cases hchain
  have hstep : ∀ step : String × String, step.1 ∈ names → step.2 ∈ names →
      unroundedMetric runs kind step metric = _ := fun _ hb ha => unroundedMetric_eq hruns hrounds hb ha metric
  constructor
  · intro step hmem
    obtain ⟨hb,ha⟩ := mem_steps hmem
    refine ⟨_,_,hstep step hb ha,?_,?_⟩
    · rw [meanOver]
      congr 2
      refine List.map_congr_left fun run hrun => ?_
      have hcard : ((rounds run).card:ℚ) ≠ 0 := by
        exact_mod_cast (hrounds run hrun).nonempty.card_pos.ne'
      rw [div_mul_cancel₀ _ hcard]
    · intro rng at' r hr
      obtain ⟨u,hu,hmean,hper⟩ := summarizeMetric_rounds hr
      rw [hstep step hb ha] at hu
      cases hu
      exact ⟨hmean,hper⟩
  · intro path hne hpath
    let g : String → ℚ := fun name => meanOver runs rounds fun run r => run.roundMean kind metric name r
    have hdiff : ∀ step : String × String, meanOver runs rounds (roundDifference kind metric step) = g step.2-g step.1 :=
      fun step => meanOver_sub runs rounds _ _
    refine ⟨(steps path).map fun step => g step.2-g step.1,?_,?_⟩
    · rw [mapM_eq_ok,List.forall₂_map_right_iff,List.forall₂_same]
      intro step hmem
      obtain ⟨hb,ha⟩ := mem_steps hmem
      rw [hstep step (hpath.subset hb) (hpath.subset ha),← hdiff]
      rfl
    · obtain ⟨a,path,rfl⟩ := List.exists_cons_of_ne_nil hne
      rw [sum_steps,meanOver_sub]
      rfl

/-- A run of two rounds, of which the first has two samples of the second condition. -/
def unevenRun : RunFile where
  measuredRounds := 2
  samples := fun _ => [("keycloak_official",[⟨0,0,1,1⟩,⟨1,0,2,2⟩]),
    ("fork_feature_disabled",[⟨0,1,3,3⟩,⟨0,2,5,5⟩,⟨1,1,4,4⟩])]

theorem uneven_run_telescopes : ∃ ms, (steps ["keycloak_official","fork_feature_disabled"]).mapM (fun step =>
      (unroundedMetric [unevenRun] .sso step .clientMs).map Prod.fst) = .ok ms ∧
    ms.sum = meanOver [unevenRun] (fun _ => {0,1}) fun run r =>
      run.roundMean .sso .clientMs "fork_feature_disabled" r-run.roundMean .sso .clientMs "keycloak_official" r := by
  have hcovered : ∀ run ∈ [unevenRun], Covered ["keycloak_official","fork_feature_disabled"] .sso run {0,1} := by
    intro run hrun
    rw [List.mem_singleton.mp hrun]
    refine ⟨⟨0,by decide⟩,?_⟩
    intro name hname
    simp only [List.mem_cons,List.not_mem_nil,or_false] at hname
    rcases hname with rfl | rfl
    · exact ⟨_,rfl,by decide⟩
    · exact ⟨_,rfl,by decide⟩
  exact (steps_telescope (by decide) hcovered .clientMs).2 ["keycloak_official","fork_feature_disabled"]
    (List.cons_ne_nil _ _) (List.infix_refl _)

end Oidc4acLab.Benchmark
