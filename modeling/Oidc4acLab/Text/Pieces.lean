import Oidc4acLab.Text.CodeUnits

/-! # Pieces of a separated text

The trimmed pieces of a text between separators, blank ones left out. Texts that are
joined with the separator have their pieces one text after the other; when the pieces
give back as many values as there were texts, each text was one piece.
-/
namespace Oidc4acLab.Text

def pieces (separator : UInt16) (t : Text) : List Text :=
  ((split separator t).map trim).filter fun item => !item.isEmpty

theorem length_trim_le (t : Text) : (trim t).length ≤ t.length :=
  ((List.rdropWhile_prefix _ _).length_le).trans (List.dropWhile_suffix _).length_le

@[simp] theorem trim_trim (t : Text) : trim (trim t) = trim t := by
  have hleft : (trim t).dropWhile isSpace = trim t := by
    rw [List.dropWhile_eq_self_iff]
    intro h0
    obtain ⟨r,hr⟩ := List.rdropWhile_prefix isSpace (t.dropWhile isSpace)
    have hpos : 0 < (t.dropWhile isSpace).length := by
      have h := (List.rdropWhile_prefix isSpace (t.dropWhile isSpace)).length_le
      exact Nat.lt_of_lt_of_le h0 h
    have hself : (t.dropWhile isSpace).dropWhile isSpace = t.dropWhile isSpace :=
      List.dropWhile_idempotent isSpace t
    have hhead := (List.dropWhile_eq_self_iff.mp hself) hpos
    have hsame : (trim t)[0] = (t.dropWhile isSpace)[0] := by
      simp only [trim] at h0 ⊢
      exact (List.rdropWhile_prefix isSpace (t.dropWhile isSpace)).getElem h0
    rwa [hsame]
  have hright : (trim t).rdropWhile isSpace = trim t := List.rdropWhile_idempotent isSpace _
  rw [trim,hleft,hright]

theorem trim_space {c : UInt16} (h : isSpace c = true) (t : Text) : trim (c :: t) = trim t := by
  rw [trim,trim,List.dropWhile_cons_of_pos h]

theorem mem_split {separator : UInt16} {t p : Text} (h : p ∈ split separator t) :
    separator ∉ p ∧ ∀ c ∈ p, c ∈ t := by
  induction t generalizing p with
  | nil =>
    rw [List.mem_singleton.mp h]
    simp
  | cons c t ih =>
    rw [split,List.splitOn_cons_eq_if_modifyHead] at h
    split_ifs at h with hc
    · rcases List.mem_cons.mp h with rfl | h
      · simp
      · exact ⟨(ih h).1,fun d hd => List.mem_cons_of_mem c ((ih h).2 d hd)⟩
    · obtain ⟨q,qs,hqs⟩ := List.exists_cons_of_ne_nil (List.splitOn_ne_nil separator t)
      rw [hqs,List.modifyHead_cons] at h
      rcases List.mem_cons.mp h with rfl | h
      · obtain ⟨hnot,hsub⟩ := ih (p := q) (by rw [split,hqs]; exact List.mem_cons_self)
        refine ⟨?_,fun d hd => ?_⟩
        · rw [List.mem_cons,not_or]
          exact ⟨fun heq => hc (by simp [heq]),hnot⟩
        · rcases List.mem_cons.mp hd with rfl | hd
          · exact List.mem_cons_self
          · exact List.mem_cons_of_mem c (hsub d hd)
      · obtain ⟨hnot,hsub⟩ := ih (p := p) (by rw [split,hqs]; exact List.mem_cons_of_mem q h)
        exact ⟨hnot,fun d hd => List.mem_cons_of_mem c (hsub d hd)⟩

theorem mem_pieces {separator : UInt16} {t p : Text} (h : p ∈ pieces separator t) :
    trim p = p ∧ p ≠ [] ∧ separator ∉ p ∧ ∀ c ∈ p, c ∈ t := by
  obtain ⟨hp,hne⟩ := List.mem_filter.mp h
  obtain ⟨q,hq,rfl⟩ := List.mem_map.mp hp
  obtain ⟨hnot,hsub⟩ := mem_split hq
  exact ⟨trim_trim q,by simpa using hne,fun hs => hnot (mem_of_mem_trim hs),
    fun c hc => hsub c (mem_of_mem_trim hc)⟩

theorem pieces_append (separator : UInt16) (a b : Text) :
    pieces separator (a ++ separator :: b) = pieces separator a ++ pieces separator b := by
  rw [pieces,split,List.splitOn_append_cons_self,List.map_append,List.filter_append]
  rfl

theorem pieces_space {separator c : UInt16} (hc : isSpace c = true) (hne : c ≠ separator) (t : Text) :
    pieces separator (c :: t) = pieces separator t := by
  rw [pieces,pieces,split,split,List.splitOn_cons_eq_if_modifyHead,
    if_neg (by simpa using hne)]
  obtain ⟨p,ps,hps⟩ := List.exists_cons_of_ne_nil (List.splitOn_ne_nil separator t)
  rw [hps,List.modifyHead_cons,List.map_cons,List.map_cons,trim_space hc]

theorem pieces_join {separator : UInt16} (hne : (32 : UInt16) ≠ separator) (ts : List Text) :
    pieces separator (join [separator,32] ts) = ts.flatMap (pieces separator) := by
  induction ts with
  | nil => rfl
  | cons t ts ih =>
    cases ts with
    | nil => rw [join_singleton,List.flatMap_singleton]
    | cons t' ts =>
      rw [join_cons_cons,List.cons_append,List.singleton_append,pieces_append,pieces_space (by decide) hne,ih,← List.flatMap_cons]

theorem pieces_of_plain {separator : UInt16} {t : Text} (ht : trim t = t) (hne : t ≠ [])
    (hs : separator ∉ t) : pieces separator t = [t] := by
  rw [pieces,split,List.splitOn_eq_singleton hs,List.map_singleton,ht]
  simp [hne]

def weight (ts : List Text) : ℕ := (ts.map fun t => t.length+1).sum

theorem weight_split (separator : UInt16) (t : Text) : weight (split separator t) = t.length+1 := by
  induction t with
  | nil => rfl
  | cons c t ih =>
    rw [split,List.splitOn_cons_eq_if_modifyHead]
    obtain ⟨p,ps,hps⟩ := List.exists_cons_of_ne_nil (List.splitOn_ne_nil separator t)
    rw [split,hps] at ih
    simp only [weight,List.map_cons,List.sum_cons,List.length_cons] at ih ⊢
    split_ifs
    · simp only [hps,List.map_cons,List.sum_cons,List.length_nil]
      omega
    · simp only [hps,List.modifyHead_cons,List.map_cons,List.sum_cons,List.length_cons]
      omega

theorem weight_pieces_le (separator : UInt16) (t : Text) :
    weight (pieces separator t) ≤ t.length+1 := by
  have h : ∀ ts : List Text, weight ((ts.map trim).filter fun item => !item.isEmpty) ≤ weight ts := by
    intro ts
    induction ts with
    | nil => exact Nat.le_refl _
    | cons t ts ih =>
      have ht := length_trim_le t
      rw [List.map_cons,List.filter_cons]
      simp only [weight,List.map_cons,List.sum_cons] at ih ⊢
      split_ifs
      · rw [List.map_cons,List.sum_cons]
        omega
      · omega
  rw [← weight_split separator t]
  exact h _

theorem pieces_eq_singleton {separator : UInt16} {t p : Text} (hp : p ∈ pieces separator t)
    (hlen : t.length ≤ p.length) : pieces separator t = [p] := by
  have hw := weight_pieces_le separator t
  obtain ⟨l,r,hlr⟩ := List.append_of_mem hp
  rw [hlr] at hw ⊢
  simp only [weight,List.map_append,List.map_cons,List.sum_append,List.sum_cons] at hw
  have hl : l = [] := by
    cases l with
    | nil => rfl
    | cons q l =>
      simp only [List.map_cons,List.sum_cons] at hw
      omega
  have hr : r = [] := by
    cases r with
    | nil => rfl
    | cons q r =>
      simp only [List.map_cons,List.sum_cons] at hw
      omega
  rw [hl,hr]
  rfl

theorem length_flatMap_singletons {α β : Type} {W : α → List β} {vs : List α}
    (h : ∀ v ∈ vs, ∃ p, W v = [p]) : (vs.flatMap W).length = vs.length := by
  induction vs with
  | nil => rfl
  | cons v vs ih =>
    obtain ⟨p,hp⟩ := h v List.mem_cons_self
    rw [List.flatMap_cons,List.length_append,hp,ih fun u hu => h u (List.mem_cons_of_mem v hu),
      List.length_singleton,List.length_cons]
    omega

/-- If no text has a further piece beside one that gives its value back, the pieces give the values
back only if each text is one piece. -/
theorem aligned {α β γ : Type} {f : β → γ} {g : α → γ} {W : α → List β}
    (hW : ∀ v p, p ∈ W v → f p = g v → W v = [p]) {vs : List α}
    (h : ∀ (i : ℕ) v, vs[i]? = some v → ∃ p, (vs.flatMap W)[i]? = some p ∧ f p = g v) :
    ∀ v ∈ vs, ∃ p, W v = [p] ∧ f p = g v := by
  induction vs using List.reverseRecOn with
  | nil => simp
  | append_singleton vs v ih =>
    simp only [List.flatMap_append,List.flatMap_singleton] at h
    obtain ⟨p,hp,hfp⟩ := h vs.length v (by simp)
    by_cases hlen : vs.length ≤ (vs.flatMap W).length
    · have hvs : ∀ u ∈ vs, ∃ q, W u = [q] ∧ f q = g u := by
        refine ih fun i u hi => ?_
        have hlt : i < vs.length := (List.getElem?_eq_some_iff.mp hi).1
        obtain ⟨q,hq,hfq⟩ := h i u (by rw [List.getElem?_append_left hlt,hi])
        rw [List.getElem?_append_left (by omega)] at hq
        exact ⟨q,hq,hfq⟩
      have heq : (vs.flatMap W).length = vs.length :=
        length_flatMap_singletons fun u hu => (hvs u hu).imp fun _ hq => hq.1
      rw [List.getElem?_append_right (by omega)] at hp
      have hv := hW v p (List.mem_of_getElem? hp) hfp
      intro u hu
      rcases List.mem_append.mp hu with hu | hu
      · exact hvs u hu
      · rw [List.mem_singleton.mp hu]
        exact ⟨p,hv,hfp⟩
    · -- the pieces of the earlier texts are too few, so this one has another before `p`
      rw [List.getElem?_append_right (by omega)] at hp
      have hv := hW v p (List.mem_of_getElem? hp) hfp
      rw [hv,List.getElem?_singleton,if_neg (by omega)] at hp
      cases hp

end Oidc4acLab.Text
