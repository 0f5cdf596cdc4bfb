import Oidc4acLab.Benchmark.Pairing

/-! # The bootstrap interval

Whatever is chosen, a resampled mean lies between the least and the greatest difference,
and so do the percentiles of the means. Differences that are moved by a constant move
every mean by it under the same choices, and both percentiles with them.
-/
namespace Oidc4acLab.Benchmark
open Collections Fallible Number

theorem item_map {A B : Type} (f : A → B) {xs : List A} {i : ℕ} {x : A} (h : item xs i = .ok x) :
    item (xs.map f) i = .ok (f x) := by
  rw [item] at h ⊢
  rw [List.getElem?_map]
  cases hx : xs[i]? with
  | none =>
    rw [hx] at h
    cases h
  | some y =>
    rw [hx] at h
    cases h
    rfl

theorem mem_of_item {A : Type} {xs : List A} {i : ℕ} {x : A} (h : item xs i = .ok x) : x ∈ xs := by
  rw [item] at h
  cases hx : xs[i]? with
  | none =>
    rw [hx] at h
    cases h
  | some y =>
    rw [hx] at h
    cases h
    exact List.mem_of_getElem? hx

theorem mem_choices {A : Type} {rng : Random} {population : List A} {k at' : ℕ} {r : List A × ℕ}
    (h : choices rng population k at' = .ok r) : ∀ x ∈ r.1, x ∈ population := by
  obtain ⟨chosen,hchosen,rfl⟩ := map_eq_ok.mp h
  intro x hx
  obtain ⟨j,-,hj⟩ := exists_of_mem_right (mapM_eq_ok.mp hchosen) hx
  exact mem_of_item hj

theorem choices_map {A B : Type} (f : A → B) {rng : Random} {population : List A} {k at' : ℕ} {r : List A × ℕ}
    (h : choices rng population k at' = .ok r) : choices rng (population.map f) k at' = .ok (r.1.map f,r.2) := by
  obtain ⟨chosen,hchosen,rfl⟩ := map_eq_ok.mp h
  refine map_eq_ok.mpr ⟨chosen.map f,?_,rfl⟩
  rw [mapM_eq_ok,List.forall₂_map_right_iff]
  refine (mapM_eq_ok.mp hchosen).imp ?_
  intro j x hx
  rw [List.length_map]
  exact item_map f hx

/-- All differences moved by a constant. -/
def moved (c : ℚ) (differences : List (List ℚ)) : List (List ℚ) := differences.map fun run => run.map (· + c)

section Resampling
variable {rng : Random} {least greatest : ℚ}

theorem resample_bounds {runs : List (List ℚ)} (h : ∀ run ∈ runs, ∀ x ∈ run, least ≤ x ∧ x ≤ greatest) {at' : ℕ}
    {r : List ℚ × ℕ} (hr : resample rng runs at' = .ok r) : ∀ x ∈ r.1, least ≤ x ∧ x ≤ greatest := by
  induction runs generalizing at' r with
  | nil =>
    cases hr
    exact fun x hx => nomatch hx
  | cons run runs ih =>
    obtain ⟨chosen,hchosen,hr⟩ := bind_eq_ok.mp hr
    obtain ⟨rest,hrest,heq⟩ := bind_eq_ok.mp hr
    cases heq
    refine List.forall_mem_append.mpr ⟨fun x hx => ?_,ih (fun q hq => h q (List.mem_cons_of_mem run hq)) hrest⟩
    exact h run List.mem_cons_self x (mem_choices hchosen x hx)

theorem resample_moved (c : ℚ) {runs : List (List ℚ)} {at' : ℕ} {r : List ℚ × ℕ}
    (hr : resample rng runs at' = .ok r) : resample rng (moved c runs) at' = .ok (r.1.map (· + c),r.2) := by
  induction runs generalizing at' r with
  | nil =>
    cases hr
    rfl
  | cons run runs ih =>
    obtain ⟨chosen,hchosen,hr⟩ := bind_eq_ok.mp hr
    obtain ⟨rest,hrest,heq⟩ := bind_eq_ok.mp hr
    cases heq
    have hmoved := choices_map (· + c) hchosen
    rw [moved,List.map_cons,← moved]
    refine bind_eq_ok.mpr ⟨(chosen.1.map (· + c),chosen.2),?_,bind_eq_ok.mpr ⟨_,ih hrest,?_⟩⟩
    · rw [List.length_map]
      exact hmoved
    · rw [List.map_append]
      rfl

theorem bootstrapMeans_bounds {differences : List (List ℚ)}
    (h : ∀ run ∈ differences, ∀ x ∈ run, least ≤ x ∧ x ≤ greatest) {n at' : ℕ} {r : List ℚ × ℕ}
    (hr : bootstrapMeans rng differences n at' = .ok r) : ∀ x ∈ r.1, least ≤ x ∧ x ≤ greatest := by
  induction n generalizing at' r with
  | zero =>
    cases hr
    exact fun x hx => nomatch hx
  | succ n ih =>
    obtain ⟨runs,hruns,hr⟩ := bind_eq_ok.mp hr
    obtain ⟨resampled,hresampled,hr⟩ := bind_eq_ok.mp hr
    obtain ⟨m,hm,hr⟩ := bind_eq_ok.mp hr
    obtain ⟨rest,hrest,heq⟩ := bind_eq_ok.mp hr
    cases heq
    obtain ⟨hne,rfl⟩ := mean_eq_ok.mp hm
    have hvalues := resample_bounds (fun run hrun => h run (mem_choices hruns run hrun)) hresampled
    exact List.forall_mem_cons.mpr ⟨average_bounds hne hvalues,ih hrest⟩

theorem bootstrapMeans_moved (c : ℚ) {differences : List (List ℚ)} {n at' : ℕ} {r : List ℚ × ℕ}
    (hr : bootstrapMeans rng differences n at' = .ok r) :
    bootstrapMeans rng (moved c differences) n at' = .ok (r.1.map (· + c),r.2) := by
  induction n generalizing at' r with
  | zero =>
    cases hr
    rfl
  | succ n ih =>
    obtain ⟨runs,hruns,hr⟩ := bind_eq_ok.mp hr
    obtain ⟨resampled,hresampled,hr⟩ := bind_eq_ok.mp hr
    obtain ⟨m,hm,hr⟩ := bind_eq_ok.mp hr
    obtain ⟨rest,hrest,heq⟩ := bind_eq_ok.mp hr
    cases heq
    obtain ⟨hne,rfl⟩ := mean_eq_ok.mp hm
    have hmean : mean (resampled.1.map (· + c)) = .ok (average resampled.1+c) :=
      mean_eq_ok.mpr ⟨fun h0 => hne (List.map_eq_nil_iff.mp h0),average_map_add hne c⟩
    have hchosen : choices rng (moved c differences) (moved c differences).length at' =
        .ok (moved c runs.1,runs.2) := by
      rw [moved,List.length_map]
      exact choices_map _ hruns
    exact bind_eq_ok.mpr ⟨_,hchosen,bind_eq_ok.mpr ⟨_,resample_moved c hresampled,bind_eq_ok.mpr ⟨_,hmean,
      bind_eq_ok.mpr ⟨_,ih hrest,rfl⟩⟩⟩⟩

end Resampling

/-- The interval lies in order between the least and the greatest difference, and it is moved by a constant
that is added to all differences. -/
theorem bootstrap_interval_sound (rng : Random) {differences : List (List ℚ)} (hne : differences ≠ [])
    (h : ∀ run ∈ differences, run ≠ []) (at' : ℕ) : ∃ least greatest low high next,
      differences.flatten.min? = some least ∧ differences.flatten.max? = some greatest ∧
      bootstrapInterval differences rng at' = .ok ((low,high),next) ∧
      least ≤ low ∧ low ≤ high ∧ high ≤ greatest ∧
      ∀ c, bootstrapInterval (moved c differences) rng at' = .ok ((low+c,high+c),next) := by
  have hflat : differences.flatten ≠ [] := by
    obtain ⟨run,hrun⟩ := List.exists_mem_of_ne_nil _ hne
    exact fun h0 => h run hrun (List.flatten_eq_nil_iff.mp h0 run hrun)
  obtain ⟨least,hleast⟩ := Option.ne_none_iff_exists'.mp fun h0 => hflat (List.min?_eq_none_iff.mp h0)
  obtain ⟨greatest,hgreatest⟩ := Option.ne_none_iff_exists'.mp fun h0 => hflat (List.max?_eq_none_iff.mp h0)
  have hbounds : ∀ run ∈ differences, ∀ x ∈ run, least ≤ x ∧ x ≤ greatest := by
    intro run hrun x hx
    have hmem := List.mem_flatten.mpr ⟨run,hrun,hx⟩
    exact ⟨(List.min?_eq_some_iff.mp hleast).2 x hmem,(List.max?_eq_some_iff.mp hgreatest).2 x hmem⟩
  obtain ⟨⟨means,next⟩,hmeans,hlen⟩ := bootstrapMeans_ok rng hne h bootstrap at'
  have hmeansNe : means ≠ [] := by
    rintro rfl
    cases hlen
  have hordered := sorted_pairwise means
  have hin : ∀ x ∈ sorted means, least ≤ x ∧ x ≤ greatest := fun x hx =>
    bootstrapMeans_bounds hbounds hmeans x (mem_sorted.mp hx)
  have hread : ∀ {fraction : ℚ}, 0 ≤ fraction → fraction ≤ 1 → percentile means fraction = _ :=
    fun h0 h1 => percentile_eq hmeansNe h0 h1
  have hmoved : ∀ (c : ℚ) {fraction : ℚ}, 0 ≤ fraction → fraction ≤ 1 → percentile (means.map (· + c)) fraction =
      .ok (interpolate (entry (sorted means)) (place means fraction)+c) := by
    intro c fraction h0 h1
    have hentry : entry (sorted (means.map (· + c))) = fun i => entry (sorted means) i+c := by
      funext i
      rw [sorted_map_add,entry_map_add (sorted_ne_nil hmeansNe)]
    have hplace : place (means.map (· + c)) fraction = place means fraction := by
      rw [place,place,sorted_map_add,List.length_map]
    rw [percentile_eq (by simpa using hmeansNe) h0 h1,hentry,interpolate_add,hplace]
  refine ⟨least,greatest,_,_,next,hleast,hgreatest,bind_eq_ok.mpr ⟨_,hmeans,bind_eq_ok.mpr
    ⟨_,hread (by norm_num) (by norm_num),bind_eq_ok.mpr ⟨_,hread (by norm_num) (by norm_num),rfl⟩⟩⟩,?_,?_,?_,
    fun c => ?_⟩
  · exact (interpolate_entry_bounds (sorted_ne_nil hmeansNe) hordered hin (place_nonneg hmeansNe (by norm_num))).1
  · refine interpolate_mono (entry_mono hordered) (place_nonneg hmeansNe (by norm_num)) ?_
    have hn : (1:ℚ) ≤ (sorted means).length := by
      exact_mod_cast List.length_pos_iff.mpr (sorted_ne_nil hmeansNe)
    exact mul_le_mul_of_nonneg_left (by norm_num) (sub_nonneg.mpr hn)
  · exact (interpolate_entry_bounds (sorted_ne_nil hmeansNe) hordered hin (place_nonneg hmeansNe (by norm_num))).2
  · exact bind_eq_ok.mpr ⟨_,bootstrapMeans_moved c hmeans,bind_eq_ok.mpr ⟨_,hmoved c (by norm_num) (by norm_num),
      bind_eq_ok.mpr ⟨_,hmoved c (by norm_num) (by norm_num),rfl⟩⟩⟩

/-- Two runs of different length. -/
theorem two_runs_sound : ∃ least greatest low high next,
    ([[1,2],[3]]:List (List ℚ)).flatten.min? = some least ∧ ([[1,2],[3]]:List (List ℚ)).flatten.max? = some greatest ∧
      bootstrapInterval [[1,2],[3]] zeros 0 = .ok ((low,high),next) ∧
      least ≤ low ∧ low ≤ high ∧ high ≤ greatest ∧
      ∀ c, bootstrapInterval (moved c [[1,2],[3]]) zeros 0 = .ok ((low+c,high+c),next) :=
  bootstrap_interval_sound zeros (List.cons_ne_nil _ _) (by simp) 0

end Oidc4acLab.Benchmark
