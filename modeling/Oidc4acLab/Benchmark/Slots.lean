import Oidc4acLab.Benchmark.Timing

/-! # What a run writes

Every eligible condition has a slot in each round, so a run writes at least one sample of it
for each round, and nothing else.
-/
namespace Oidc4acLab.Benchmark
open Collections Fallible

theorem mem_cycled {group : List Condition} {target : ℕ} (hle : group.length ≤ target) {c : Condition} :
    c ∈ cycled group target ↔ c ∈ group := by
  rw [cycled,List.mem_filterMap]
  constructor
  · rintro ⟨i,-,hi⟩
    exact List.mem_of_getElem? hi
  · intro h
    obtain ⟨i,hi,rfl⟩ := List.mem_iff_getElem.mp h
    refine ⟨i,List.mem_range.mpr (Nat.lt_of_lt_of_le hi hle),?_⟩
    rw [Nat.mod_eq_of_lt hi]
    exact List.getElem?_eq_getElem hi

theorem largest_ok {groups : List (String × List Condition)} (hne : groups ≠ []) :
    ∃ target, largest groups = .ok target ∧ ∀ g ∈ groups, g.2.length ≤ target := by
  unfold largest
  cases hmax : (groups.map fun g => g.2.length).max? with
  | none =>
    rw [List.max?_eq_none_iff,List.map_eq_nil_iff] at hmax
    exact absurd hmax hne
  | some target =>
    refine ⟨target,rfl,?_⟩
    intro g hg
    exact (List.max?_eq_some_iff.mp hmax).2 _ (List.mem_map.mpr ⟨g,hg,rfl⟩)

theorem kindSlots_ok {conditions : List Condition} {kind : Kind}
    (h : ∃ c ∈ conditions, c.eligible kind = true) :
    ∃ slots, kindSlots conditions kind = .ok slots ∧
      ∀ k c, (k,c) ∈ slots ↔ k = kind ∧ c ∈ conditions ∧ c.eligible kind = true := by
  obtain ⟨c₀,hc₀,he₀⟩ := h
  have hgroup : ∀ c, c ∈ conditions ∧ c.eligible kind = true ↔
      ∃ g ∈ group Condition.metrics id (conditions.filter fun c => c.eligible kind), c ∈ g.2 := by
    intro c
    have hfilter : c ∈ conditions.filter (fun c => c.eligible kind) ↔
        c ∈ conditions ∧ c.eligible kind = true := List.mem_filter
    rw [← hfilter]
    constructor
    · intro hc
      have hkey : c.metrics ∈ keys (group Condition.metrics id (conditions.filter fun c => c.eligible kind)) :=
        mem_keys_group.mpr ⟨c,hc,rfl⟩
      obtain ⟨g,hg,hmetrics⟩ := List.mem_map.mp hkey
      refine ⟨g,hg,?_⟩
      rw [(mem_group hg).1,List.map_id]
      exact List.mem_filter.mpr ⟨hc,by simp [hmetrics]⟩
    · rintro ⟨g,hg,hc⟩
      rw [(mem_group hg).1,List.map_id] at hc
      exact (List.mem_filter.mp hc).1
  obtain ⟨g₀,hg₀,-⟩ := (hgroup c₀).mp ⟨hc₀,he₀⟩
  obtain ⟨target,htarget,hle⟩ := largest_ok (List.ne_nil_of_mem hg₀)
  refine ⟨_,bind_eq_ok.mpr ⟨target,htarget,rfl⟩,?_⟩
  intro k c
  rw [hgroup]
  simp only [List.mem_flatMap,List.mem_map,Prod.mk.injEq]
  constructor
  · rintro ⟨g,hg,c',hc',rfl,rfl⟩
    exact ⟨rfl,g,hg,(mem_cycled (hle g hg)).mp hc'⟩
  · rintro ⟨rfl,g,hg,hc⟩
    exact ⟨g,hg,c,(mem_cycled (hle g hg)).mpr hc,rfl,rfl⟩

theorem balancedSlots_ok {conditions : List Condition}
    (h : ∀ kind, ∃ c ∈ conditions, c.eligible kind = true) :
    ∃ slots, balancedSlots conditions = .ok slots ∧
      ∀ kind c, (kind,c) ∈ slots ↔ c ∈ conditions ∧ c.eligible kind = true := by
  obtain ⟨sso,hsso,hm₁⟩ := kindSlots_ok (h .sso)
  obtain ⟨refresh,hrefresh,hm₂⟩ := kindSlots_ok (h .refresh)
  obtain ⟨login,hlogin,hm₃⟩ := kindSlots_ok (h .login)
  have hall : kinds.mapM (kindSlots conditions) = .ok [sso,refresh,login] :=
    mapM_eq_ok.mpr (.cons hsso (.cons hrefresh (.cons hlogin .nil)))
  refine ⟨_,bind_eq_ok.mpr ⟨_,hall,rfl⟩,?_⟩
  intro kind c
  simp only [List.flatten_cons,List.flatten_nil,List.append_nil,List.mem_append,hm₁,hm₂,hm₃]
  cases kind <;> simp

def Records (conditions : List Condition) (samples : Samples) (f : Kind → String → List Sample) : Prop :=
  ∀ kind name, (samples kind).lookup name =
    if ∃ c ∈ conditions, c.name = name ∧ c.eligible kind = true then some (f kind name) else none

theorem records_empty (conditions : List Condition) :
    Records conditions (emptySamples conditions) fun _ _ => [] := by
  intro kind name
  have hlookup : ∀ names : List String, (names.map fun n => (n,([] : List Sample))).lookup name =
      if name ∈ names then some [] else none := by
    intro names
    induction names with
    | nil => rfl
    | cons n names ih =>
      rw [List.map_cons,List.lookup_cons,ih]
      by_cases hn : name = n
      · simp [hn]
      · simp [hn,beq_eq_false_iff_ne.mpr hn]
  rw [emptySamples,hlookup]
  refine if_congr ?_ rfl rfl
  rw [List.mem_eraseDups,List.mem_map]
  constructor
  · rintro ⟨c,hc,rfl⟩
    exact ⟨c,(List.mem_filter.mp hc).1,rfl,(List.mem_filter.mp hc).2⟩
  · rintro ⟨c,hc,rfl,he⟩
    exact ⟨c,List.mem_filter.mpr ⟨hc,he⟩,rfl⟩

/-- The samples that a round adds to a condition, from the slots at these positions. -/
def added (rec : Recording) (r : ℕ) (placed : List (Slot × ℕ)) (kind : Kind) (name : String) : List Sample :=
  (placed.filter fun p => p.1.1 = kind ∧ p.1.2.name = name).map fun p => sampleAt rec r p.2

theorem append_records {conditions : List Condition} {samples : Samples} {f : Kind → String → List Sample}
    (h : Records conditions samples f) {kind : Kind} {c : Condition} (hc : c ∈ conditions)
    (he : c.eligible kind = true) (sample : Sample) :
    ∃ samples', append samples kind c.name sample = .ok samples' ∧
      Records conditions samples' fun k n => if k = kind ∧ n = c.name then f k n ++ [sample] else f k n := by
  have hlookup := h kind c.name
  rw [if_pos ⟨c,hc,rfl,he⟩] at hlookup
  refine ⟨_,by rw [append,if_pos (by rw [hlookup]; rfl)],?_⟩
  intro k n
  by_cases hk : k = kind
  · subst hk
    rw [Function.update_self,lookup_extend]
    by_cases hn : n = c.name
    · subst hn
      rw [if_pos rfl,hlookup,if_pos ⟨c,hc,rfl,he⟩]
      simp
    · rw [if_neg hn,h k n]
      simp only [hn,and_false,if_false]
  · rw [Function.update_of_ne hk,h k n]
    simp only [hk,false_and,if_false]

theorem placed_records {conditions : List Condition} {rec : Recording} {r : ℕ} {placed : List (Slot × ℕ)}
    (hplaced : ∀ p ∈ placed, p.1.2 ∈ conditions ∧ p.1.2.eligible p.1.1 = true) {samples : Samples}
    {f : Kind → String → List Sample} (h : Records conditions samples f) :
    ∃ samples', placed.foldlM
        (fun samples p => append samples p.1.1 p.1.2.name (sampleAt rec r p.2)) samples = .ok samples' ∧
      Records conditions samples' fun k n => f k n ++ added rec r placed k n := by
  induction placed generalizing samples f with
  | nil =>
    refine ⟨samples,rfl,?_⟩
    intro k n
    simpa [added] using h k n
  | cons p placed ih =>
    obtain ⟨hc,he⟩ := hplaced p List.mem_cons_self
    obtain ⟨samples₁,hok,h₁⟩ := append_records h hc he (sampleAt rec r p.2)
    obtain ⟨samples₂,hok₂,h₂⟩ := ih (fun q hq => hplaced q (List.mem_cons_of_mem p hq)) h₁
    refine ⟨samples₂,?_,?_⟩
    · rw [List.foldlM_cons]
      exact bind_eq_ok.mpr ⟨samples₁,hok,hok₂⟩
    · intro k n
      rw [h₂ k n]
      by_cases hp : p.1.1 = k ∧ p.1.2.name = n
      · obtain ⟨rfl,rfl⟩ := hp
        simp [added]
      · have hp' : ¬ (k = p.1.1 ∧ n = p.1.2.name) := fun h => hp ⟨h.1.symm,h.2.symm⟩
        simp [added,hp,hp']

def roundSamples (rec : Recording) (warmups : ℕ) (slots : List Slot) (kind : Kind) (name : String)
    (r : ℕ) : List Sample :=
  added rec r (rec.order (warmups+r) slots).zipIdx kind name

def allSamples (rec : Recording) (warmups : ℕ) (slots : List Slot) (kind : Kind) (name : String)
    (rounds : List ℕ) : List Sample :=
  rounds.flatMap (roundSamples rec warmups slots kind name)

theorem rounds_records {conditions : List Condition} {rec : Recording} {warmups : ℕ} {slots : List Slot}
    (hslots : ∀ kind c, (kind,c) ∈ slots ↔ c ∈ conditions ∧ c.eligible kind = true) {rounds : List ℕ}
    {samples : Samples} {f : Kind → String → List Sample} (h : Records conditions samples f) :
    ∃ samples', rounds.foldlM (measureRound rec warmups slots) samples = .ok samples' ∧
      Records conditions samples' fun k n => f k n ++ allSamples rec warmups slots k n rounds := by
  induction rounds generalizing samples f with
  | nil =>
    refine ⟨samples,rfl,?_⟩
    intro k n
    simpa [allSamples] using h k n
  | cons r rounds ih =>
    have hplaced : ∀ p ∈ (rec.order (warmups+r) slots).zipIdx,
        p.1.2 ∈ conditions ∧ p.1.2.eligible p.1.1 = true := by
      intro p hp
      have hmem := List.fst_mem_of_mem_zipIdx hp
      exact (hslots p.1.1 p.1.2).mp ((rec.permuted (warmups+r) slots).mem_iff.mp hmem)
    obtain ⟨samples₁,hok,h₁⟩ := placed_records hplaced h
    obtain ⟨samples₂,hok₂,h₂⟩ := ih h₁
    refine ⟨samples₂,?_,?_⟩
    · rw [List.foldlM_cons]
      exact bind_eq_ok.mpr ⟨samples₁,hok,hok₂⟩
    · intro k n
      rw [h₂ k n]
      simp [allSamples,roundSamples]

theorem main_ok {conditions : List Condition} {slots : List Slot}
    (hok : balancedSlots conditions = .ok slots)
    (hslots : ∀ kind c, (kind,c) ∈ slots ↔ c ∈ conditions ∧ c.eligible kind = true) {warmups rounds : ℕ}
    (hw : 1 ≤ warmups) (hr : 2 ≤ rounds) (rec : Recording) :
    ∃ file, main conditions warmups rounds rec = .ok file ∧
      Records conditions file.samples fun k n => allSamples rec warmups slots k n (List.range rounds) := by
  obtain ⟨samples,hfold,h⟩ : ∃ samples, (List.range rounds).foldlM (measureRound rec warmups slots)
      (emptySamples conditions) = .ok samples ∧
      Records conditions samples fun k n => [] ++ allSamples rec warmups slots k n (List.range rounds) :=
    rounds_records hslots (records_empty conditions)
  refine ⟨⟨rounds,samples⟩,?_,?_⟩
  · have hguard : ¬ (warmups < 1 ∨ rounds < 2) := by omega
    rw [main,if_neg hguard]
    exact bind_eq_ok.mpr ⟨slots,hok,bind_eq_ok.mpr ⟨samples,hfold,rfl⟩⟩
  · intro k n
    rw [h k n]
    simp

theorem round_of_mem {rec : Recording} {warmups : ℕ} {slots : List Slot} {kind : Kind} {name : String} {r : ℕ}
    {s : Sample} (h : s ∈ roundSamples rec warmups slots kind name r) : s.round = r := by
  obtain ⟨p,-,rfl⟩ := List.mem_map.mp h
  rfl

theorem roundSamples_ne_nil {slots : List Slot} (rec : Recording) (warmups : ℕ) {kind : Kind} {c : Condition}
    (h : (kind,c) ∈ slots) (r : ℕ) : roundSamples rec warmups slots kind c.name r ≠ [] := by
  have hmem : (kind,c) ∈ rec.order (warmups+r) slots := (rec.permuted (warmups+r) slots).mem_iff.mpr h
  obtain ⟨i,hi,heq⟩ := List.mem_iff_getElem.mp hmem
  refine List.ne_nil_of_mem (List.mem_map.mpr ⟨((kind,c),i),List.mem_filter.mpr ⟨?_,by simp⟩,rfl⟩)
  rw [List.mk_mem_zipIdx_iff_getElem?,List.getElem?_eq_getElem hi,heq]

theorem filter_allSamples {rec : Recording} {warmups : ℕ} {slots : List Slot} {kind : Kind} {name : String}
    {rounds : List ℕ} (hnodup : rounds.Nodup) {r : ℕ} (hr : r ∈ rounds) :
    (allSamples rec warmups slots kind name rounds).filter (fun s => s.round = r) =
      roundSamples rec warmups slots kind name r := by
  have hown : ∀ i, (roundSamples rec warmups slots kind name i).filter (fun s => s.round = r) =
      if i = r then roundSamples rec warmups slots kind name i else [] := by
    intro i
    split_ifs with hi
    · rw [List.filter_eq_self]
      intro s hs
      simp [round_of_mem hs,hi]
    · rw [List.filter_eq_nil_iff]
      intro s hs
      simp [round_of_mem hs,hi]
  induction rounds with
  | nil => cases hr
  | cons i rounds ih =>
    have hcons := List.nodup_cons.mp hnodup
    rw [allSamples,List.flatMap_cons,List.filter_append,hown,← allSamples]
    rcases List.mem_cons.mp hr with rfl | hr
    · have hrest : (allSamples rec warmups slots kind name rounds).filter (fun s => s.round = r) = [] := by
        rw [List.filter_eq_nil_iff]
        intro s hs
        obtain ⟨j,hj,hs⟩ := List.mem_flatMap.mp hs
        rw [round_of_mem hs,decide_eq_true_eq]
        rintro rfl
        exact hcons.1 hj
      rw [if_pos rfl,hrest,List.append_nil]
    · have hne : i ≠ r := by
        rintro rfl
        exact hcons.1 hr
      rw [if_neg hne,List.nil_append]
      exact ih hcons.2 hr

end Oidc4acLab.Benchmark
