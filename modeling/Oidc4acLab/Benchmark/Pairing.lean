import Oidc4acLab.Benchmark.Slots
import Oidc4acLab.Benchmark.Statistics

/-! # Benchmark runs can be analysed

The runs that the benchmark writes have samples of both conditions of a step in every round, so
no lookup and no statistic of the analysis fails, and the differences are paired by run and round.
-/
namespace Oidc4acLab.Benchmark
open Collections Fallible

theorem choices_ok {A : Type} (rng : Random) {population : List A} (h : population ≠ []) (k at' : ℕ) :
    ∃ chosen, choices rng population k at' = .ok (chosen,at'+k) ∧ chosen.length = k ∧
      ∀ x ∈ chosen, x ∈ population := by
  have hpos : 0 < population.length := List.length_pos_iff.mpr h
  have hitem : ∀ j ∈ List.range k, ∃ x,
      item population ⌊(rng (at'+j)).1*population.length⌋.toNat = .ok x ∧ x ∈ population := by
    intro j _
    obtain ⟨u,hu0,hu1⟩ := rng (at'+j)
    have hn : (0:ℚ) < population.length := by exact_mod_cast hpos
    have hlt : u*population.length < population.length := by nlinarith
    have hfloor : ⌊u*population.length⌋ < (population.length:ℤ) := Int.floor_lt.mpr (by push_cast; exact hlt)
    have hindex : ⌊u*population.length⌋.toNat < population.length := by omega
    exact ⟨_,item_ok hindex,List.getElem_mem hindex⟩
  obtain ⟨chosen,hchosen⟩ := exists_forall₂ hitem
  refine ⟨chosen,?_,?_,?_⟩
  · rw [choices,mapM_eq_ok.mpr (hchosen.imp fun _ _ h => h.1)]
    rfl
  · rw [← hchosen.length_eq,List.length_range]
  · intro x hx
    obtain ⟨j,-,-,hmem⟩ := exists_of_mem_right hchosen hx
    exact hmem

theorem resample_ok (rng : Random) {runs : List (List ℚ)} (h : ∀ run ∈ runs, run ≠ []) (at' : ℕ) :
    ∃ r, resample rng runs at' = .ok r ∧ (runs ≠ [] → r.1 ≠ []) := by
  induction runs generalizing at' with
  | nil => exact ⟨_,rfl,fun hne => absurd rfl hne⟩
  | cons run runs ih =>
    have hrun := h run List.mem_cons_self
    obtain ⟨chosen,hok,hlen,-⟩ := choices_ok rng hrun run.length at'
    obtain ⟨rest,hrest,-⟩ := ih (fun q hq => h q (List.mem_cons_of_mem run hq)) (at'+run.length)
    refine ⟨_,bind_eq_ok.mpr ⟨_,hok,bind_eq_ok.mpr ⟨rest,hrest,rfl⟩⟩,?_⟩
    intro _
    have hne : chosen ≠ [] := by
      rintro rfl
      exact hrun (List.length_eq_zero_iff.mp hlen.symm)
    exact List.append_ne_nil_of_left_ne_nil hne _

theorem bootstrapMeans_ok (rng : Random) {differences : List (List ℚ)} (hne : differences ≠ [])
    (h : ∀ run ∈ differences, run ≠ []) (n at' : ℕ) :
    ∃ r, bootstrapMeans rng differences n at' = .ok r ∧ r.1.length = n := by
  induction n generalizing at' with
  | zero => exact ⟨_,rfl,rfl⟩
  | succ n ih =>
    obtain ⟨runs,hruns,hlen,hmem⟩ := choices_ok rng hne differences.length at'
    obtain ⟨resampled,hres,hvalues⟩ :=
      resample_ok rng (fun run hrun => h run (hmem run hrun)) (at'+differences.length)
    have hruns' : runs ≠ [] := by
      rintro rfl
      exact hne (List.length_eq_zero_iff.mp hlen.symm)
    obtain ⟨rest,hrest,hrestlen⟩ := ih resampled.2
    refine ⟨_,bind_eq_ok.mpr ⟨_,hruns,bind_eq_ok.mpr ⟨_,hres,bind_eq_ok.mpr ⟨_,mean_ok (hvalues hruns'),
      bind_eq_ok.mpr ⟨rest,hrest,rfl⟩⟩⟩⟩,?_⟩
    simp [hrestlen]

theorem bootstrapInterval_ok (rng : Random) {differences : List (List ℚ)} (hne : differences ≠ [])
    (h : ∀ run ∈ differences, run ≠ []) (at' : ℕ) :
    ∃ r, bootstrapInterval differences rng at' = .ok r := by
  obtain ⟨means,hmeans,hlen⟩ := bootstrapMeans_ok rng hne h bootstrap at'
  have hmeans' : means.1 ≠ [] := by
    intro h0
    rw [h0] at hlen
    exact absurd hlen (by decide)
  obtain ⟨low,hlow⟩ : ∃ p, percentile means.1 (25/1000) = .ok p :=
    ⟨_,percentile_eq hmeans' (by norm_num) (by norm_num)⟩
  obtain ⟨high,hhigh⟩ : ∃ p, percentile means.1 (975/1000) = .ok p :=
    ⟨_,percentile_eq hmeans' (by norm_num) (by norm_num)⟩
  exact ⟨_,bind_eq_ok.mpr ⟨means,hmeans,bind_eq_ok.mpr ⟨low,hlow,bind_eq_ok.mpr ⟨high,hhigh,rfl⟩⟩⟩⟩

theorem halfMeans_ok {differences : List (List ℚ)} (hne : differences ≠ [])
    (h : ∀ run ∈ differences, 2 ≤ run.length) : ∃ r, halfMeans differences = .ok r := by
  obtain ⟨run,hrun⟩ := List.exists_mem_of_ne_nil _ hne
  have hlen := h run hrun
  have hfirst : differences.flatMap (fun run => run.take (run.length/2)) ≠ [] := by
    intro h0
    have htake : (run.take (run.length/2)).length = 0 := by rw [List.flatMap_eq_nil_iff.mp h0 run hrun]; rfl
    rw [List.length_take] at htake
    omega
  have hsecond : differences.flatMap (fun run => run.drop (run.length/2)) ≠ [] := by
    intro h0
    have hdrop : (run.drop (run.length/2)).length = 0 := by rw [List.flatMap_eq_nil_iff.mp h0 run hrun]; rfl
    rw [List.length_drop] at hdrop
    omega
  exact ⟨_,bind_eq_ok.mpr ⟨_,mean_ok hfirst,bind_eq_ok.mpr ⟨_,mean_ok hsecond,rfl⟩⟩⟩

/-- The values recorded under the name of a condition in one round. -/
def namedValues (rec : Recording) (warmups : ℕ) (slots : List Slot) (kind : Kind) (name : String) (metric : Metric)
    (r : ℕ) : List ℚ :=
  (roundSamples rec warmups slots kind name r).map fun s => s.measured metric

section Rounds
variable {rec : Recording} {warmups : ℕ} {slots : List Slot} {kind : Kind} {c : Condition} {rounds : ℕ}

theorem namedValues_ne_nil (hslot : (kind,c) ∈ slots) (metric : Metric) (r : ℕ) :
    namedValues rec warmups slots kind c.name metric r ≠ [] := by
  rw [namedValues,Ne,List.map_eq_nil_iff]
  exact roundSamples_ne_nil rec warmups hslot r

variable (rec warmups slots kind c rounds) in
def byRound (metric : Metric) : List (ℕ × List ℚ) :=
  group Sample.round (fun s => s.measured metric)
    (allSamples rec warmups slots kind c.name (List.range rounds))

theorem lookup_byRound (hslot : (kind,c) ∈ slots) (metric : Metric) {r : ℕ} (hr : r < rounds) :
    (byRound rec warmups slots kind c rounds metric).lookup r =
      some (namedValues rec warmups slots kind c.name metric r) := by
  have hround : (allSamples rec warmups slots kind c.name (List.range rounds)).filter (fun s => s.round = r) =
      roundSamples rec warmups slots kind c.name r := filter_allSamples List.nodup_range (List.mem_range.mpr hr)
  rw [byRound,lookup_group,hround,if_neg (roundSamples_ne_nil rec warmups hslot r)]
  rfl

theorem mem_keys_byRound (hslot : (kind,c) ∈ slots) (metric : Metric) (r : ℕ) :
    r ∈ keys (byRound rec warmups slots kind c rounds metric) ↔ r < rounds := by
  constructor
  · intro h
    obtain ⟨s,hs,rfl⟩ := mem_keys_group.mp h
    obtain ⟨i,hi,hs⟩ := List.mem_flatMap.mp hs
    rw [round_of_mem hs]
    exact List.mem_range.mp hi
  · intro hr
    rw [keys,← lookup_isSome_iff_mem,lookup_byRound hslot metric hr]
    rfl

theorem sorted_rounds (hslot : (kind,c) ∈ slots) (metric : Metric) :
    (keys (byRound rec warmups slots kind c rounds metric)).mergeSort (fun a b => decide (a ≤ b)) =
      List.range rounds := by
  have hperm : (keys (byRound rec warmups slots kind c rounds metric)).Perm (List.range rounds) := by
    have hnodup : (keys (byRound rec warmups slots kind c rounds metric)).Nodup := nodup_keys_group _ _ _
    rw [List.perm_ext_iff_of_nodup hnodup List.nodup_range]
    intro r
    rw [mem_keys_byRound hslot,List.mem_range]
  have htrans : ∀ a b c : ℕ, decide (a ≤ b) = true → decide (b ≤ c) = true → decide (a ≤ c) = true :=
    fun a b c hab hbc => decide_eq_true (Nat.le_trans (of_decide_eq_true hab) (of_decide_eq_true hbc))
  have htotal : ∀ a b : ℕ, (decide (a ≤ b) || decide (b ≤ a)) = true := by
    intro a b
    simpa using Nat.le_total a b
  have hsorted := List.pairwise_mergeSort htrans htotal (keys (byRound rec warmups slots kind c rounds metric))
  have hrange : (List.range rounds).Pairwise fun a b => decide (a ≤ b) = true :=
    List.pairwise_le_range.imp fun h => decide_eq_true h
  refine List.Perm.eq_of_pairwise ?_ hsorted hrange ((List.mergeSort_perm _ _).trans hperm)
  intro a b _ _ hab hba
  exact Nat.le_antisymm (of_decide_eq_true hab) (of_decide_eq_true hba)

theorem roundMeans_ok (rec : Recording) (warmups rounds : ℕ) (hslot : (kind,c) ∈ slots) (metric : Metric) :
    ∃ means, roundMeans (allSamples rec warmups slots kind c.name (List.range rounds)) metric = .ok means ∧
      (means.map Prod.fst).mergeSort (fun a b => decide (a ≤ b)) = List.range rounds ∧
      ∀ r < rounds, means.lookup r = some (average (namedValues rec warmups slots kind c.name metric r)) := by
  refine ⟨(byRound rec warmups slots kind c rounds metric).map fun e => (e.1,average e.2),roundMeans_grouped _ metric,?_,?_⟩
  · rw [List.map_map]
    exact sorted_rounds hslot metric
  · intro r hr
    rw [lookup_map,lookup_byRound hslot metric hr]
    rfl

end Rounds

/-- The differences of what is recorded under the names of the two conditions. -/
def namedDifferences (rec : Recording) (warmups : ℕ) (slots : List Slot) (kind : Kind) (before after : Condition)
    (metric : Metric) (rounds : ℕ) : List ℚ :=
  (List.range rounds).map fun r =>
    average (namedValues rec warmups slots kind after.name metric r) -
      average (namedValues rec warmups slots kind before.name metric r)

def Written (conditions : List Condition) (slots : List Slot) (warmups rounds : ℕ) (rec : Recording)
    (file : RunFile) : Prop :=
  Records conditions file.samples fun k n => allSamples rec warmups slots k n (List.range rounds)

section Runs
variable {conditions : List Condition} {slots : List Slot} {warmups rounds : ℕ} {kind : Kind}

theorem recorded_ok {rec : Recording} {file : RunFile} (h : Written conditions slots warmups rounds rec file)
    {c : Condition} (hc : c ∈ conditions) (he : c.eligible kind = true) :
    file.recorded kind c.name = .ok (allSamples rec warmups slots kind c.name (List.range rounds)) := by
  have hlookup := h kind c.name
  rw [if_pos ⟨c,hc,rfl,he⟩] at hlookup
  rw [RunFile.recorded,hlookup]

theorem differences_ok (hslots : ∀ kind c, (kind,c) ∈ slots ↔ c ∈ conditions ∧ c.eligible kind = true)
    {rec : Recording} {file : RunFile} (h : Written conditions slots warmups rounds rec file)
    {before after : Condition} (hb : before ∈ conditions ∧ before.eligible kind = true)
    (ha : after ∈ conditions ∧ after.eligible kind = true) (metric : Metric) :
    differences kind before.name after.name metric file =
      .ok (namedDifferences rec warmups slots kind before after metric rounds) := by
  obtain ⟨first,hfirst,hsorted,hfirstLookup⟩ :=
    roundMeans_ok rec warmups rounds ((hslots kind before).mpr hb) metric
  obtain ⟨second,hsecond,-,hsecondLookup⟩ :=
    roundMeans_ok rec warmups rounds ((hslots kind after).mpr ha) metric
  refine bind_eq_ok.mpr ⟨_,recorded_ok h hb.1 hb.2,bind_eq_ok.mpr ⟨first,hfirst,bind_eq_ok.mpr
    ⟨_,recorded_ok h ha.1 ha.2,bind_eq_ok.mpr ⟨second,hsecond,?_⟩⟩⟩⟩
  rw [hsorted]
  refine mapM_eq_ok.mpr ?_
  rw [namedDifferences,List.forall₂_map_right_iff,List.forall₂_same]
  intro r hr
  rw [hfirstLookup r (List.mem_range.mp hr),hsecondLookup r (List.mem_range.mp hr)]

theorem inTurn_ok {A B : Type} {f : A → ℕ → Except Failure (B × ℕ)} {xs : List A}
    (h : ∀ x ∈ xs, ∀ at', ∃ r, f x at' = .ok r) (at' : ℕ) : ∃ r, inTurn f xs at' = .ok r := by
  induction xs generalizing at' with
  | nil => exact ⟨_,rfl⟩
  | cons x xs ih =>
    obtain ⟨y,hy⟩ := h x List.mem_cons_self at'
    obtain ⟨ys,hys⟩ := ih (fun z hz => h z (List.mem_cons_of_mem x hz)) y.2
    exact ⟨_,bind_eq_ok.mpr ⟨y,hy,bind_eq_ok.mpr ⟨ys,hys,rfl⟩⟩⟩

variable {recordings : List Recording} {files : List RunFile}

theorem paired_ok (hslots : ∀ kind c, (kind,c) ∈ slots ↔ c ∈ conditions ∧ c.eligible kind = true)
    (hfiles : List.Forall₂ (Written conditions slots warmups rounds) recordings files)
    {before after : Condition} (hb : before ∈ conditions ∧ before.eligible kind = true)
    (ha : after ∈ conditions ∧ after.eligible kind = true) (metric : Metric) :
    files.mapM (differences kind before.name after.name metric) =
      .ok (recordings.map fun rec => namedDifferences rec warmups slots kind before after metric rounds) := by
  rw [mapM_eq_ok,List.forall₂_map_right_iff]
  refine List.Forall₂.flip (hfiles.imp ?_)
  intro rec file h
  exact differences_ok hslots h hb ha metric

theorem summarizeMetric_ok (hslots : ∀ kind c, (kind,c) ∈ slots ↔ c ∈ conditions ∧ c.eligible kind = true)
    (hruns : recordings ≠ []) (hrounds : 2 ≤ rounds)
    (hfiles : List.Forall₂ (Written conditions slots warmups rounds) recordings files)
    {before after : Condition} (hb : before ∈ conditions ∧ before.eligible kind = true)
    (ha : after ∈ conditions ∧ after.eligible kind = true) (rng : Random) (metric : Metric) (at' : ℕ) :
    ∃ r, summarizeMetric files kind before.name after.name rng metric at' = .ok r := by
  have hpaired := paired_ok hslots hfiles hb ha metric
  have hlen : ∀ run ∈ recordings.map (fun rec =>
      namedDifferences rec warmups slots kind before after metric rounds), 2 ≤ run.length := by
    intro run hrun
    obtain ⟨rec,-,rfl⟩ := List.mem_map.mp hrun
    simpa [namedDifferences] using hrounds
  have hne : recordings.map (fun rec =>
      namedDifferences rec warmups slots kind before after metric rounds) ≠ [] := by
    rwa [Ne,List.map_eq_nil_iff]
  generalize recordings.map (fun rec => namedDifferences rec warmups slots kind before after metric rounds) =
    paired at hpaired hlen hne
  have hall : ∀ run ∈ paired, run ≠ [] := by
    rintro run hrun rfl
    exact absurd (hlen [] hrun) (by decide)
  have hflat : paired.flatten ≠ [] := by
    obtain ⟨run,hrun⟩ := List.exists_mem_of_ne_nil _ hne
    intro h0
    exact hall run hrun (List.flatten_eq_nil_iff.mp h0 run hrun)
  obtain ⟨interval,hinterval⟩ := bootstrapInterval_ok rng hne hall at'
  obtain ⟨halves,hhalves⟩ := halfMeans_ok hne hlen
  have hperRun : paired.mapM mean = .ok (paired.map average) := by
    rw [mapM_eq_ok,List.forall₂_map_right_iff,List.forall₂_same]
    exact fun run hrun => mean_ok (hall run hrun)
  exact ⟨_,bind_eq_ok.mpr ⟨paired,hpaired,bind_eq_ok.mpr ⟨interval,hinterval,bind_eq_ok.mpr
    ⟨_,mean_ok hflat,bind_eq_ok.mpr ⟨_,hperRun,bind_eq_ok.mpr ⟨halves,hhalves,rfl⟩⟩⟩⟩⟩⟩

theorem summarizeCondition_ok (hslots : ∀ kind c, (kind,c) ∈ slots ↔ c ∈ conditions ∧ c.eligible kind = true)
    (hruns : recordings ≠ []) (hrounds : 2 ≤ rounds)
    (hfiles : List.Forall₂ (Written conditions slots warmups rounds) recordings files) {c : Condition}
    (hc : c ∈ conditions ∧ c.eligible kind = true) : ∃ r, summarizeCondition files kind c.name = .ok r := by
  have hrecorded : files.mapM (fun run => run.recorded kind c.name) =
      .ok (recordings.map fun rec => allSamples rec warmups slots kind c.name (List.range rounds)) := by
    rw [mapM_eq_ok,List.forall₂_map_right_iff]
    exact List.Forall₂.flip (hfiles.imp fun rec file h => recorded_ok h hc.1 hc.2)
  have hsamples : (recordings.map fun rec =>
      allSamples rec warmups slots kind c.name (List.range rounds)).flatten ≠ [] := by
    obtain ⟨rec,hrec⟩ := List.exists_mem_of_ne_nil _ hruns
    intro h0
    have hall := List.flatten_eq_nil_iff.mp h0 _ (List.mem_map.mpr ⟨rec,hrec,rfl⟩)
    exact roundSamples_ne_nil rec warmups ((hslots kind c).mpr hc) 0
      (List.flatMap_eq_nil_iff.mp hall 0 (List.mem_range.mpr (by omega)))
  have hstatistics : ∀ metric ∈ metrics, ∃ y, (do
      let values := ((recordings.map fun rec =>
        allSamples rec warmups slots kind c.name (List.range rounds)).flatten).map fun s => s.measured metric
      let m ← median values
      let p ← percentile values (95/100)
      return (metric,roundTo 3 m,roundTo 3 p) : Except Failure (Metric × ℚ × ℚ)) = .ok y := by
    intro metric _
    have hne : ((recordings.map fun rec =>
        allSamples rec warmups slots kind c.name (List.range rounds)).flatten).map
        (fun s => s.measured metric) ≠ [] := by
      rwa [Ne,List.map_eq_nil_iff]
    obtain ⟨m,hm⟩ := median_ok hne
    have hp := percentile_eq hne (show (0:ℚ) ≤ 95/100 by norm_num) (by norm_num)
    exact ⟨_,bind_eq_ok.mpr ⟨m,hm,bind_eq_ok.mpr ⟨_,hp,rfl⟩⟩⟩
  obtain ⟨statistics,hstat⟩ := exists_forall₂ hstatistics
  exact ⟨_,bind_eq_ok.mpr ⟨_,hrecorded,bind_eq_ok.mpr ⟨statistics,mapM_eq_ok.mpr hstat,rfl⟩⟩⟩

theorem chain_ok (hruns : recordings ≠ [])
    (hfiles : List.Forall₂ (Written conditions slots warmups rounds) recordings files) :
    ∃ names, chain files kind = .ok names ∧
      ∀ name ∈ names, ∃ c, (c ∈ conditions ∧ c.eligible kind = true) ∧ c.name = name := by
  cases hfiles with
  | nil => exact absurd rfl hruns
  | @cons rec file recordings files h _ =>
    refine ⟨_,bind_eq_ok.mpr ⟨file,rfl,rfl⟩,?_⟩
    intro name hname
    have hsome := (List.mem_filter.mp hname).2
    rw [h kind name] at hsome
    split_ifs at hsome with hc
    · obtain ⟨c,hc,hn,he⟩ := hc
      exact ⟨c,⟨hc,he⟩,hn⟩
    · cases hsome

theorem mem_steps {names : List String} {step : String × String} (h : step ∈ steps names) :
    step.1 ∈ names ∧ step.2 ∈ names := by
  have hmem := List.of_mem_zip (show (step.1,step.2) ∈ names.zip names.tail from h)
  exact ⟨hmem.1,List.mem_of_mem_tail hmem.2⟩

end Runs

/-- The values measured in one round where the slot of this condition was. -/
def values (rec : Recording) (warmups : ℕ) (slots : List Slot) (kind : Kind) (c : Condition) (metric : Metric)
    (r : ℕ) : List ℚ :=
  ((rec.order (warmups+r) slots).zipIdx.filter fun p => p.1 = (kind,c)).map fun p =>
    (sampleAt rec r p.2).measured metric

/-- The difference of the two conditions' means in each round. -/
def pairedDifferences (rec : Recording) (warmups : ℕ) (slots : List Slot) (kind : Kind) (before after : Condition)
    (metric : Metric) (rounds : ℕ) : List ℚ :=
  (List.range rounds).map fun r =>
    average (values rec warmups slots kind after metric r) -
      average (values rec warmups slots kind before metric r)

section Distinct
variable {conditions : List Condition} {slots : List Slot} {kind : Kind}

theorem namedValues_eq (hnames : (conditions.map Condition.name).Nodup)
    (hslots : ∀ kind c, (kind,c) ∈ slots ↔ c ∈ conditions ∧ c.eligible kind = true) {c : Condition}
    (hc : c ∈ conditions) (rec : Recording) (warmups : ℕ) (metric : Metric) (r : ℕ) :
    namedValues rec warmups slots kind c.name metric r = values rec warmups slots kind c metric r := by
  have hfilter : (rec.order (warmups+r) slots).zipIdx.filter (fun p => p.1.1 = kind ∧ p.1.2.name = c.name) =
      (rec.order (warmups+r) slots).zipIdx.filter fun p => p.1 = (kind,c) := by
    refine List.filter_congr ?_
    rintro ⟨⟨kind',c'⟩,i⟩ hp
    have hmem := (rec.permuted (warmups+r) slots).mem_iff.mp (List.fst_mem_of_mem_zipIdx hp)
    have hc' := ((hslots kind' c').mp hmem).1
    have hname : c'.name = c.name ↔ c' = c :=
      ⟨List.inj_on_of_nodup_map hnames hc' hc,fun h => by rw [h]⟩
    simp [hname]
  rw [namedValues,roundSamples,added,hfilter,List.map_map]
  rfl

theorem namedDifferences_eq (hnames : (conditions.map Condition.name).Nodup)
    (hslots : ∀ kind c, (kind,c) ∈ slots ↔ c ∈ conditions ∧ c.eligible kind = true) {before after : Condition}
    (hb : before ∈ conditions) (ha : after ∈ conditions) (rec : Recording) (warmups : ℕ) (metric : Metric)
    (rounds : ℕ) : namedDifferences rec warmups slots kind before after metric rounds =
      pairedDifferences rec warmups slots kind before after metric rounds := by
  unfold namedDifferences pairedDifferences
  refine List.map_congr_left ?_
  intro r _
  rw [namedValues_eq hnames hslots hb,namedValues_eq hnames hslots ha]

end Distinct

/-- The samples of any number of runs can be summarized for each kind of cycle, and each difference of a
step is between the means of its two conditions in one round of one run. -/
theorem runs_summarized {conditions : List Condition} (hnames : (conditions.map Condition.name).Nodup)
    (heligible : ∀ kind, ∃ c ∈ conditions, c.eligible kind = true) {warmups rounds : ℕ} (hw : 1 ≤ warmups)
    (hr : 2 ≤ rounds) {recordings : List Recording} (hruns : recordings ≠ []) (kind : Kind) (rng : Random)
    (at' : ℕ) :
    ∃ slots files names, balancedSlots conditions = .ok slots ∧
      recordings.mapM (main conditions warmups rounds) = .ok files ∧ chain files kind = .ok names ∧
      (∃ summary, summarizeKind files kind rng at' = .ok summary) ∧
      ∀ step ∈ steps names, ∃ before after, before ∈ conditions ∧ after ∈ conditions ∧
        step = (before.name,after.name) ∧
        (∀ rec metric r, values rec warmups slots kind before metric r ≠ [] ∧
          values rec warmups slots kind after metric r ≠ []) ∧
        ∀ metric, files.mapM (differences kind step.1 step.2 metric) = .ok (recordings.map fun rec =>
          pairedDifferences rec warmups slots kind before after metric rounds) := by
  obtain ⟨slots,hok,hslots⟩ := balancedSlots_ok heligible
  obtain ⟨files,hmain⟩ := exists_forall₂ fun rec (_ : rec ∈ recordings) => main_ok hok hslots hw hr rec
  have hfiles : List.Forall₂ (Written conditions slots warmups rounds) recordings files :=
    hmain.imp fun _ _ h => h.2
  obtain ⟨names,hchain,hnamed⟩ : ∃ names, chain files kind = .ok names ∧
      ∀ name ∈ names, ∃ c, (c ∈ conditions ∧ c.eligible kind = true) ∧ c.name = name := chain_ok hruns hfiles
  have hstep : ∀ step ∈ steps names, ∃ before after,
      (before ∈ conditions ∧ before.eligible kind = true) ∧ (after ∈ conditions ∧ after.eligible kind = true) ∧
      step = (before.name,after.name) := by
    intro step hmem
    obtain ⟨before,hb,hbn⟩ := hnamed _ (mem_steps hmem).1
    obtain ⟨after,ha,han⟩ := hnamed _ (mem_steps hmem).2
    exact ⟨before,after,hb,ha,by rw [hbn,han]⟩
  refine ⟨slots,files,names,hok,mapM_eq_ok.mpr (hmain.imp fun _ _ h => h.1),hchain,?_,?_⟩
  · have hconditions : ∀ name ∈ names, ∃ y, summarizeCondition files kind name = .ok y := by
      intro name hname
      obtain ⟨c,hc,rfl⟩ := hnamed name hname
      exact summarizeCondition_ok hslots hruns hr hfiles hc
    obtain ⟨summaries,hsummaries⟩ := exists_forall₂ hconditions
    have hstepped : ∀ step ∈ steps names, ∀ at', ∃ y, summarizeStep files kind rng step at' = .ok y := by
      intro step hmem at'
      obtain ⟨before,after,hb,ha,rfl⟩ := hstep step hmem
      obtain ⟨y,hy⟩ := inTurn_ok (fun metric _ at' =>
        summarizeMetric_ok hslots hruns hr hfiles hb ha rng metric at') at'
      exact ⟨_,map_eq_ok.mpr ⟨y,hy,rfl⟩⟩
    obtain ⟨stepped,hsteps⟩ := inTurn_ok hstepped at'
    exact ⟨_,bind_eq_ok.mpr ⟨names,hchain,bind_eq_ok.mpr ⟨summaries,mapM_eq_ok.mpr hsummaries,
      bind_eq_ok.mpr ⟨stepped,hsteps,rfl⟩⟩⟩⟩
  · intro step hmem
    obtain ⟨before,after,hb,ha,rfl⟩ := hstep step hmem
    refine ⟨before,after,hb.1,ha.1,rfl,?_,?_⟩
    · intro rec metric r
      rw [← namedValues_eq hnames hslots hb.1,← namedValues_eq hnames hslots ha.1]
      exact ⟨namedValues_ne_nil ((hslots kind before).mpr hb) metric r,
        namedValues_ne_nil ((hslots kind after).mpr ha) metric r⟩
    · intro metric
      rw [paired_ok hslots hfiles hb ha metric]
      refine congrArg Except.ok (List.map_congr_left ?_)
      intro rec _
      exact namedDifferences_eq hnames hslots hb.1 ha.1 rec warmups metric rounds

/-- A run that keeps the order of the slots. -/
def steady : Recording := ⟨fun _ slots => slots,fun _ slots => List.Perm.refl slots,fun r _ => r,fun _ i => i⟩

/-- Two runs of the benchmark's own conditions. -/
theorem own_conditions_summarized :
    ∃ files, [steady,steady].mapM (main allConditions 50 100) = .ok files ∧
      ∃ summary, summarizeKind files .login zeros 0 = .ok summary := by
  have hnames : (allConditions.map Condition.name).Nodup := by decide
  obtain ⟨_,files,_,_,hmain,_,hsummary,_⟩ := runs_summarized hnames
    (by intro kind; cases kind <;> exact ⟨_,List.mem_cons_self,rfl⟩) (show 1 ≤ 50 by decide)
    (show 2 ≤ 100 by decide) (List.cons_ne_nil steady [steady]) .login zeros 0
  exact ⟨files,hmain,hsummary⟩

end Oidc4acLab.Benchmark
