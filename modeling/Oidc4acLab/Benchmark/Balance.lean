import Oidc4acLab.Benchmark.Slots
import Mathlib.Data.Int.CardIntervalMod

/-! # Slots are balanced

All instances with an eligible condition have equally many slots of a kind: as many as the
largest group has conditions. A smaller group is repeated in turn, so that its conditions
share the slots evenly. An order of the slots does not change how often they are served.
-/
namespace Oidc4acLab.Benchmark
open Collections Fallible

/-- The eligible conditions of one instance. -/
def eligibleOn (conditions : List Condition) (kind : Kind) (metrics : String) : List Condition :=
  (conditions.filter fun c => c.eligible kind).filter fun c => c.metrics = metrics

/-- The conditions in the slots of one kind on one instance. -/
def slotsOn (slots : List Slot) (kind : Kind) (metrics : String) : List Condition :=
  (slots.filter fun s => s.1 = kind ∧ s.2.metrics = metrics).map Prod.snd

/-- Each of `size` positions is taken in turn: at least once, and as often as the others or once more. -/
structure SharedEvenly (size target : ℕ) (position : ℕ → Fin size) : Prop where
  once : ∀ j, 1 ≤ Nat.count (fun i => position i = j) target
  evenly : ∀ j, Nat.count (fun i => position i = j) target = target/size ∨
    Nat.count (fun i => position i = j) target = (target+size-1)/size

/-- The slots of a kind are balanced: `target` is the largest number of eligible conditions of an instance. -/
structure Balanced (conditions : List Condition) (slots : List Slot) (kind : Kind) (target : ℕ) : Prop where
  largest : IsGreatest {n | ∃ metrics, n = (eligibleOn conditions kind metrics).length} target
  eligible : ∀ c, (kind,c) ∈ slots → c ∈ conditions ∧ c.eligible kind = true
  served : ∀ metrics, eligibleOn conditions kind metrics ≠ [] → (slotsOn slots kind metrics).length = target
  shared : ∀ metrics, eligibleOn conditions kind metrics ≠ [] →
    ∃ position : ℕ → Fin (eligibleOn conditions kind metrics).length,
      slotsOn slots kind metrics = (List.range target).map (fun i => (eligibleOn conditions kind metrics).get (position i)) ∧
        SharedEvenly (eligibleOn conditions kind metrics).length target position

/-- The position that is reached after `i` steps around. -/
def around {size : ℕ} (hpos : 0 < size) (i : ℕ) : Fin size := ⟨i%size,Nat.mod_lt i hpos⟩

theorem sharedEvenly_around {size target : ℕ} (hpos : 0 < size) (hle : size ≤ target) :
    SharedEvenly size target (around hpos) := by
  have hcount : ∀ j : Fin size, Nat.count (fun i => around hpos i = j) target =
      target/size + if j.val < target%size then 1 else 0 := by
    intro j
    have h := Nat.count_modEq_card target hpos j.val
    rw [Nat.mod_eq_of_lt j.isLt] at h
    rw [← h]
    congr 1
    funext i
    rw [Fin.ext_iff,around,Nat.ModEq,Nat.mod_eq_of_lt j.isLt]
  have hquot : 1 ≤ target/size := (Nat.one_le_div_iff hpos).mpr hle
  refine ⟨fun j => ?_,fun j => ?_⟩
  · rw [hcount]
    omega
  · rw [hcount]
    split_ifs with hj
    · right
      have hceil : target+size-1 = size*(target/size+1)+(target%size-1) := by
        have hdiv := Nat.div_add_mod target size
        rw [Nat.mul_add]
        omega
      have hrest : target%size-1 < size := by
        have hlt := Nat.mod_lt target hpos
        omega
      rw [hceil,Nat.mul_add_div hpos,Nat.div_eq_of_lt hrest]
    · left
      rfl

theorem cycled_eq {group : List Condition} (hpos : 0 < group.length) (target : ℕ) :
    cycled group target = (List.range target).map fun i => group.get (around hpos i) := by
  rw [cycled,← List.filterMap_eq_map]
  refine List.filterMap_congr ?_
  intro i _
  exact List.getElem?_eq_getElem (Nat.mod_lt i hpos)

theorem mem_byInstance {conditions : List Condition} {kind : Kind} {g : String × List Condition} :
    g ∈ group Condition.metrics id (conditions.filter fun c => c.eligible kind) ↔
      g.2 = eligibleOn conditions kind g.1 ∧ g.2 ≠ [] := by
  constructor
  · intro hg
    obtain ⟨heq,hne⟩ := mem_group hg
    rw [List.map_id] at heq
    exact ⟨heq,hne⟩
  · rintro ⟨heq,hne⟩
    obtain ⟨c,hc⟩ := List.exists_mem_of_ne_nil _ hne
    rw [heq] at hc
    have hkey : g.1 ∈ keys (group Condition.metrics id (conditions.filter fun c => c.eligible kind)) :=
      mem_keys_group.mpr ⟨c,(List.mem_filter.mp hc).1,by simpa using (List.mem_filter.mp hc).2⟩
    obtain ⟨e,he,hmetrics⟩ := List.mem_map.mp hkey
    have hsame : e = g := by
      refine Prod.ext hmetrics ?_
      rw [(mem_group he).1,List.map_id,heq,hmetrics]
      rfl
    rwa [← hsame]

theorem filter_flatMap_key {K V B : Type} [DecidableEq K] {d : List (K × V)} (hnodup : (d.map Prod.fst).Nodup)
    {block : K × V → List B} {p : K → B → Bool} (hown : ∀ e ∈ d, ∀ b ∈ block e, ∀ k, p k b = true ↔ k = e.1)
    {e : K × V} (he : e ∈ d) : (d.flatMap block).filter (p e.1) = block e := by
  induction d with
  | nil => cases he
  | cons a d ih =>
    rw [List.map_cons,List.nodup_cons] at hnodup
    have hother : ∀ e' ∈ a :: d, e'.1 ≠ e.1 → (block e').filter (p e.1) = [] := by
      intro e' he' hne
      refine List.filter_eq_nil_iff.mpr fun b hb h => hne ?_
      exact ((hown e' he' b hb e.1).mp h).symm
    have hself : (block e).filter (p e.1) = block e :=
      List.filter_eq_self.mpr fun b hb => (hown e he b hb e.1).mpr rfl
    rw [List.flatMap_cons,List.filter_append]
    rcases List.mem_cons.mp he with rfl | he'
    · have hrest : (d.flatMap block).filter (p e.1) = [] := by
        rw [List.filter_flatMap,List.flatMap_eq_nil_iff]
        intro e' he'
        refine hother e' (List.mem_cons_of_mem _ he') fun heq => hnodup.1 ?_
        exact List.mem_map.mpr ⟨e',he',heq⟩
      rw [hself,hrest,List.append_nil]
    · have hne : a.1 ≠ e.1 := fun heq => hnodup.1 (List.mem_map.mpr ⟨e,he',heq.symm⟩)
      rw [hother a List.mem_cons_self hne,List.nil_append]
      exact ih hnodup.2 (fun e' he' => hown e' (List.mem_cons_of_mem _ he')) he'

theorem slotsOn_kindSlots {conditions : List Condition} {kind : Kind} {slots : List Slot}
    (h : kindSlots conditions kind = .ok slots) : ∃ target,
      IsGreatest {n | ∃ metrics, n = (eligibleOn conditions kind metrics).length} target ∧
        ∀ metrics, eligibleOn conditions kind metrics ≠ [] →
          slotsOn slots kind metrics = cycled (eligibleOn conditions kind metrics) target := by
  obtain ⟨target,htarget,heq⟩ := bind_eq_ok.mp h
  cases heq
  refine ⟨target,?_,?_⟩
  · unfold largest at htarget
    split at htarget
    · next m hmax =>
      cases htarget
      obtain ⟨hmem,hle⟩ := List.max?_eq_some_iff.mp hmax
      obtain ⟨g,hg,rfl⟩ := List.mem_map.mp hmem
      refine ⟨⟨g.1,congrArg List.length (mem_byInstance.mp hg).1⟩,?_⟩
      rintro n ⟨metrics,rfl⟩
      by_cases hnil : eligibleOn conditions kind metrics = []
      · rw [hnil]
        exact Nat.zero_le _
      · exact hle _ (List.mem_map.mpr ⟨(metrics,_),mem_byInstance.mpr ⟨rfl,hnil⟩,rfl⟩)
    · cases htarget
  · intro metrics hne
    have hg : (metrics,eligibleOn conditions kind metrics) ∈
        group Condition.metrics id (conditions.filter fun c => c.eligible kind) := mem_byInstance.mpr ⟨rfl,hne⟩
    have hown : ∀ g ∈ group Condition.metrics id (conditions.filter fun c => c.eligible kind),
        ∀ s ∈ (cycled g.2 target).map (fun c => (kind,c)), ∀ k,
          decide (s.1 = kind ∧ s.2.metrics = k) = true ↔ k = g.1 := by
      intro g hg s hs k
      obtain ⟨c,hc,rfl⟩ := List.mem_map.mp hs
      obtain ⟨i,-,hi⟩ := List.mem_filterMap.mp hc
      have hmem := List.mem_of_getElem? hi
      rw [(mem_byInstance.mp hg).1] at hmem
      have hmetrics : c.metrics = g.1 := by simpa using (List.mem_filter.mp hmem).2
      simp [hmetrics,eq_comm]
    have hblock := filter_flatMap_key (nodup_keys_group Condition.metrics id _) hown hg
    rw [slotsOn,hblock,List.map_map]
    exact List.map_id _

theorem slotsOn_append (slots slots' : List Slot) (kind : Kind) (metrics : String) :
    slotsOn (slots ++ slots') kind metrics = slotsOn slots kind metrics ++ slotsOn slots' kind metrics := by
  rw [slotsOn,List.filter_append,List.map_append]
  rfl

theorem slotsOn_of_other {slots : List Slot} {kind : Kind} (h : ∀ s ∈ slots, s.1 ≠ kind) (metrics : String) :
    slotsOn slots kind metrics = [] := by
  rw [slotsOn,List.map_eq_nil_iff,List.filter_eq_nil_iff]
  intro s hs
  simp [h s hs]

theorem slotsOn_balancedSlots {conditions : List Condition} {slots : List Slot} {part : Kind → List Slot}
    (hok : balancedSlots conditions = .ok slots) (hpart : ∀ kind, kindSlots conditions kind = .ok (part kind))
    (hkind : ∀ kind, ∀ s ∈ part kind, s.1 = kind) (kind : Kind) (metrics : String) :
    slotsOn slots kind metrics = slotsOn (part kind) kind metrics := by
  have hall : kinds.mapM (kindSlots conditions) = .ok [part .sso,part .refresh,part .login] :=
    mapM_eq_ok.mpr (.cons (hpart .sso) (.cons (hpart .refresh) (.cons (hpart .login) .nil)))
  obtain ⟨parts,hparts,heq⟩ := bind_eq_ok.mp hok
  rw [hall] at hparts
  cases hparts
  cases heq
  have hother : ∀ k, k ≠ kind → slotsOn (part k) kind metrics = [] := by
    intro k hk
    refine slotsOn_of_other ?_ metrics
    intro s hs
    rw [hkind k s hs]
    exact hk
  simp only [List.flatten_cons,List.flatten_nil,List.append_nil,slotsOn_append]
  cases kind with
  | sso => rw [hother .refresh (by decide),hother .login (by decide),List.append_nil,List.append_nil]
  | refresh => rw [hother .sso (by decide),hother .login (by decide),List.nil_append,List.append_nil]
  | login => rw [hother .sso (by decide),hother .refresh (by decide),List.nil_append,List.nil_append]

theorem length_slotsOn_perm {slots order : List Slot} (h : order.Perm slots) (kind : Kind) (metrics : String) :
    (slotsOn order kind metrics).length = (slotsOn slots kind metrics).length := by
  rw [slotsOn,slotsOn,List.length_map,List.length_map]
  exact (h.filter _).length_eq

/-- The slots are balanced for each kind, and in any order every instance with an eligible condition
serves equally many of them. -/
theorem slots_balanced {conditions : List Condition} (hlogin : ∃ c ∈ conditions, c.login = true) :
    ∃ slots, balancedSlots conditions = .ok slots ∧ ∀ kind, ∃ target, Balanced conditions slots kind target ∧
      ∀ order : List Slot, order.Perm slots → ∀ metrics, eligibleOn conditions kind metrics ≠ [] →
        (slotsOn order kind metrics).length = target := by
  have heligible : ∀ kind, ∃ c ∈ conditions, c.eligible kind = true := by
    obtain ⟨c,hc,hl⟩ := hlogin
    intro kind
    exact ⟨c,hc,by rw [Condition.eligible,hl,Bool.or_true]⟩
  obtain ⟨slots,hok,hmem⟩ := balancedSlots_ok heligible
  choose part hpart hpartmem using fun kind => kindSlots_ok (heligible kind)
  have hkind : ∀ kind, ∀ s ∈ part kind, s.1 = kind := fun kind s hs => ((hpartmem kind s.1 s.2).mp hs).1
  refine ⟨slots,hok,fun kind => ?_⟩
  obtain ⟨target,hlargest,hslots⟩ := slotsOn_kindSlots (hpart kind)
  have hturn : ∀ metrics, (hne : eligibleOn conditions kind metrics ≠ []) → slotsOn slots kind metrics =
      (List.range target).map fun i => (eligibleOn conditions kind metrics).get
        (around (List.length_pos_iff.mpr hne) i) := by
    intro metrics hne
    rw [slotsOn_balancedSlots hok hpart hkind,hslots metrics hne,cycled_eq]
  have hserved : ∀ metrics, eligibleOn conditions kind metrics ≠ [] →
      (slotsOn slots kind metrics).length = target := by
    intro metrics hne
    rw [hturn metrics hne,List.length_map,List.length_range]
  refine ⟨target,⟨hlargest,fun c hc => (hmem kind c).mp hc,hserved,fun metrics hne => ?_⟩,
    fun order horder metrics hne => ?_⟩
  · exact ⟨_,hturn metrics hne,sharedEvenly_around _ (hlargest.2 ⟨metrics,rfl⟩)⟩
  · rw [length_slotsOn_perm horder,hserved metrics hne]

/-- The benchmark's own conditions. -/
theorem own_slots_balanced : ∃ slots, balancedSlots allConditions = .ok slots ∧
    ∀ kind, ∃ target, Balanced allConditions slots kind target := by
  obtain ⟨slots,hok,hbalanced⟩ := slots_balanced
    (show ∃ c ∈ allConditions, c.login = true from ⟨_,List.mem_cons_self,rfl⟩)
  exact ⟨slots,hok,fun kind => ⟨_,(hbalanced kind).choose_spec.1⟩⟩

end Oidc4acLab.Benchmark
