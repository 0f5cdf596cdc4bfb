import Oidc4acLab.Json.Scanner

/-! # Where a text passes a limit

`Expects L k t s`: by the grammar, `t` begins so that a value is expected at its end `s`
inside `k` open arrays and objects. A scanner refuses a text for a limit exactly if such
an end opens one array or object too many or starts a leaf beyond its limit.
-/
namespace Oidc4acLab.Scanner
open Text Json Document Fallible

variable {α β : Type}

/-- Elements with the comma behind each of them. -/
def begun (ps : List (Piece β)) : Text := (ps.map fun p => p.before ++ (p.text ++ (p.after ++ [44]))).flatten

theorem begun_cons (p : Piece β) (ps : List (Piece β)) (t : Text) :
    begun (p :: ps) ++ t = p.before ++ (p.text ++ (p.after ++ 44 :: (begun ps ++ t))) := by
  simp [begun]

theorem length_begun (ps : List (Piece β)) : ps.length ≤ (begun ps).length := by
  induction ps with
  | nil => exact Nat.le_refl _
  | cons p ps ih =>
    have h := congrArg List.length (begun_cons p ps [])
    simp only [List.append_nil,List.length_append,List.length_cons] at h ⊢
    omega

inductive Expects (L : Text → α → Prop) : ℕ → Text → Text → Prop
  | here {b s : Text} (hb : Blank b) : Expects L 0 (b ++ s) s
  | arr {b t s : Text} {k : ℕ} {ps : List (Piece (Tree α))} (hb : Blank b) (hspaced : ∀ p ∈ ps, p.Spaced)
      (hvalue : ∀ p ∈ ps, Value L p.text p.value) (h : Expects L k t s) :
      Expects L (k+1) (b ++ 91 :: (begun ps ++ t)) s
  | obj {b b' w name gap t s : Text} {k : ℕ} {ms : List (Member α)} (hb : Blank b)
      (hspaced : ∀ m ∈ ms, m.piece.Spaced) (hspelled : ∀ m ∈ ms, m.Spelled)
      (hvalue : ∀ m ∈ ms, Value L m.text m.value) (hb' : Blank b') (hw : Chars w name) (hgap : Blank gap)
      (h : Expects L k t s) :
      Expects L (k+1) (b ++ 123 :: (begun (ms.map Member.piece) ++ (b' ++ 34 :: (w ++ 34 :: (gap ++ 58 :: t))))) s

def Opens (s : Text) : Prop := s.head? = some 91 ∨ s.head? = some 123

theorem exceeds_sequence {element : Text → Except Refusal (β × Text)} {closing : UInt16} {E : Text → β → Prop}
    (helement : ∀ t v r, element t = .ok (v,r) → ∃ b w, t = b ++ (w ++ r) ∧ Blank b ∧ E w v) {n : ℕ} {t : Text}
    (h : Exceeds (sequence element closing n t)) :
    ∃ (ps : List (Piece β)) (t' : Text), t = begun ps ++ t' ∧ (∀ p ∈ ps, p.Spaced ∧ E p.text p.value) ∧
      Exceeds (element t') := by
  induction n generalizing t with
  | zero => exact absurd h not_exceeds_malformed
  | succ n ih =>
    rcases exceeds_bind.mp h with h | ⟨⟨v,r⟩,hv,hloop⟩
    · exact ⟨[],t,rfl,by simp,h⟩
    · obtain ⟨b,w,rfl,hb,hw⟩ := helement _ _ _ hv
      obtain ⟨a,hr,ha⟩ := blank_skipSpace r
      simp only at hloop
      split at hloop
      · exact absurd hloop not_exceeds_malformed
      · next c r' hskip =>
        rw [hskip] at hr
        split_ifs at hloop with hcomma hclosing
        · rcases exceeds_bind.mp hloop with hloop | ⟨vs,-,hdone⟩
          · obtain ⟨ps,t',rfl,hps,ht'⟩ := ih hloop
            refine ⟨⟨b,w,a,v⟩ :: ps,t',?_,List.forall_mem_cons.mpr ⟨⟨⟨hb,ha⟩,hw⟩,hps⟩,ht'⟩
            rw [begun_cons,hr,hcomma]
          · exact absurd hdone (not_exceeds_ok _)
        · exact absurd hloop (not_exceeds_ok _)
        · exact absurd hloop not_exceeds_malformed

theorem sequence_exceeds {element : Text → Except Refusal (β × Text)} {closing : UInt16} {G : β → Prop}
    {ps : List (Piece β)} (hspaced : ∀ p ∈ ps, p.Spaced)
    (hread : ∀ p ∈ ps, ∀ r, Delimited r → Reads (element (p.before ++ (p.text ++ r))) (G p.value) (p.value,r))
    {t : Text} (ht : Exceeds (element t)) {n : ℕ} (hn : ps.length < n) :
    Exceeds (sequence element closing n (begun ps ++ t)) := by
  induction ps generalizing n with
  | nil =>
    obtain ⟨n,rfl⟩ := Nat.exists_eq_add_of_le' (Nat.lt_of_le_of_lt (Nat.zero_le _) hn)
    exact exceeds_bind.mpr (Or.inl ht)
  | cons p ps ih =>
    obtain ⟨n,rfl⟩ := Nat.exists_eq_add_of_le' (Nat.lt_of_le_of_lt (Nat.zero_le _) hn)
    have hp := hspaced p List.mem_cons_self
    have hrest := ih (fun q hq => hspaced q (List.mem_cons_of_mem _ hq))
      (fun q hq => hread q (List.mem_cons_of_mem _ hq)) (n := n) (by rw [List.length_cons] at hn; omega)
    have hp' := hread p List.mem_cons_self _ ((delimited_cons (Or.inl rfl) (begun ps ++ t)).blank_append hp.2)
    rw [begun_cons,sequence]
    by_cases hG : G p.value
    · have hstart : ∀ c, (44 :: (begun ps ++ t)).head? = some c → isBlank c = false := by
        rintro c ⟨⟩
        decide
      refine exceeds_bind.mpr (Or.inr ⟨_,hp'.1 hG,?_⟩)
      simp only [skipSpace_append hp.2 hstart,↓reduceIte]
      exact exceeds_bind.mpr (Or.inl hrest)
    · exact exceeds_bind.mpr (Or.inl (hp'.2 hG))

namespace Leaf
variable (S : Leaf α)

/-- The text passes a limit: `n` arrays and objects are open when another is opened, or a leaf is beyond
its limit. -/
def PassesLimit (n : ℕ) (t : Text) : Prop :=
  ∃ k s, Expects S.Denotes k t s ∧ (k = n ∧ Opens s ∨ S.Overflows s)

theorem not_exceeds_memberName (t : Text) : ¬ Exceeds (memberName t) := by
  rw [memberName]
  split_ifs
  · split
    · exact not_exceeds_malformed
    · split_ifs
      · exact not_exceeds_ok _
      · exact not_exceeds_malformed
  · exact not_exceeds_malformed

theorem exceeds_member {f : Text → Except Refusal (Tree α × Text)} {t : Text} (h : Exceeds (member f t)) :
    ∃ b w name gap t', t = b ++ 34 :: (w ++ 34 :: (gap ++ 58 :: t')) ∧ Blank b ∧ Chars w name ∧ Blank gap ∧
      Exceeds (f t') := by
  rcases exceeds_bind.mp h with h | ⟨⟨name,t'⟩,hname,h⟩
  · exact absurd h (not_exceeds_memberName t)
  · rcases exceeds_bind.mp h with h | ⟨v,-,h⟩
    · obtain ⟨b,w,gap,ht,hb,hw,hgap⟩ := memberName_sound hname
      exact ⟨b,w,name,gap,t',ht,hb,hw,hgap,h⟩
    · exact absurd h (not_exceeds_ok _)

theorem exceeds_elements {element : Text → Except Refusal (β × Text)} {closing : UInt16} {t : Text}
    (h : Exceeds (elements element closing t)) : Exceeds (sequence element closing t.length t) := by
  rw [elements] at h
  split_ifs at h
  · exact absurd h (not_exceeds_ok _)
  · exact h

theorem exists_opened (n : ℕ) : ∃ inside, S.value n = S.opened inside := by
  cases n with
  | zero => exact ⟨_,rfl⟩
  | succ n => exact ⟨_,rfl⟩

theorem head_of_exceeds {n : ℕ} {t : Text} (h : Exceeds (S.value n t)) :
    ∃ c r, skipSpace t = c :: r ∧ (c = 91 ∨ c = 123 ∨ startsLeaf c = true) := by
  obtain ⟨inside,hinside⟩ := S.exists_opened n
  rw [hinside,opened] at h
  cases hskip : skipSpace t with
  | nil =>
    rw [hskip] at h
    exact absurd h not_exceeds_malformed
  | cons c r =>
    rw [hskip] at h
    simp only at h
    refine ⟨c,r,rfl,?_⟩
    split_ifs at h with harr hobj
    · exact Or.inl harr
    · exact Or.inr (Or.inl hobj)
    · obtain ⟨d,w,heq,hd⟩ := S.overflows_starts ((S.overflows _).mp (exceeds_map.mp h))
      cases heq
      exact Or.inr (Or.inr hd)

theorem passesLimit_of_opened {n : ℕ} {inside : Option (Text → Except Refusal (Tree α × Text))}
    (hnone : inside = none → n = 0)
    (hsome : ∀ f, inside = some f → ∃ k, n = k+1 ∧ f = S.value k ∧ ∀ t, Exceeds (f t) → S.PassesLimit k t)
    {t : Text} (h : Exceeds (S.opened inside t)) : S.PassesLimit n t := by
  obtain ⟨b,ht,hb⟩ := blank_skipSpace t
  rw [opened] at h
  cases hskip : skipSpace t with
  | nil =>
    rw [hskip] at h
    exact absurd h not_exceeds_malformed
  | cons c r =>
    rw [hskip] at h ht
    rw [ht]
    simp only at h
    split_ifs at h with harr hobj
    · cases inside with
      | none => exact ⟨0,_,.here hb,Or.inl ⟨(hnone rfl).symm,Or.inl (by rw [harr]; rfl)⟩⟩
      | some f =>
        obtain ⟨k,rfl,rfl,hf⟩ := hsome f rfl
        have hsound : ∀ t v r, S.value k t = .ok (v,r) →
            ∃ b w, t = b ++ (w ++ r) ∧ Blank b ∧ Value S.Denotes w v := fun t v r hv => by
          obtain ⟨b,w,ht,hb,hw,-⟩ := S.value_sound hv
          exact ⟨b,w,ht,hb,hw⟩
        obtain ⟨ps,t',hr,hps,ht'⟩ := exceeds_sequence hsound (exceeds_elements (exceeds_map.mp h))
        obtain ⟨j,s,hs,hcase⟩ := hf t' ht'
        refine ⟨j+1,s,?_,hcase.imp_left fun h => ⟨congrArg (· + 1) h.1,h.2⟩⟩
        rw [hr,harr]
        exact .arr hb (fun p hp => (hps p hp).1) (fun p hp => (hps p hp).2) hs
    · cases inside with
      | none => exact ⟨0,_,.here hb,Or.inl ⟨(hnone rfl).symm,Or.inr (by rw [hobj]; rfl)⟩⟩
      | some f =>
        obtain ⟨k,rfl,rfl,hf⟩ := hsome f rfl
        have hsound : ∀ t v r, member (S.value k) t = .ok (v,r) →
            ∃ b w, t = b ++ (w ++ r) ∧ Blank b ∧ MemberText S.Denotes w v := fun t v r hv => by
          obtain ⟨b,w,ht,hb,hw,-⟩ := member_sound (fun t v r => S.value_sound) hv
          exact ⟨b,w,ht,hb,hw⟩
        obtain ⟨ps,t',hr,hps,ht'⟩ := exceeds_sequence hsound (exceeds_elements (exceeds_map.mp h))
        obtain ⟨b',w,name,gap,u,rfl,hb',hw,hgap,hu⟩ := exceeds_member ht'
        obtain ⟨j,s,hs,hcase⟩ := hf u hu
        obtain ⟨ms,rfl,hms⟩ : ∃ ms : List (Member α), ms.map Member.piece = ps ∧
            ∀ m ∈ ms, m.piece.Spaced ∧ m.Spelled ∧ Value S.Denotes m.text m.value := by
          refine exists_map_eq fun p hp => ?_
          obtain ⟨hspaced,m,htext,hvalue,hspelled,hv⟩ := hps p hp
          exact ⟨{ m with before := p.before, after := p.after },by cases p; cases htext; cases hvalue; rfl,
            hspaced,hspelled,hv⟩
        refine ⟨j+1,s,?_,hcase.imp_left fun h => ⟨congrArg (· + 1) h.1,h.2⟩⟩
        rw [hr,hobj]
        exact .obj hb (fun m hm => (hms m hm).1) (fun m hm => (hms m hm).2.1) (fun m hm => (hms m hm).2.2)
          hb' hw hgap hs
    · exact ⟨0,_,.here hb,Or.inr ((S.overflows _).mp (exceeds_map.mp h))⟩

theorem passesLimit_of_exceeds {n : ℕ} {t : Text} (h : Exceeds (S.value n t)) : S.PassesLimit n t := by
  induction n generalizing t with
  | zero => exact S.passesLimit_of_opened (fun _ => rfl) (fun f hf => by cases hf) h
  | succ n ih =>
    refine S.passesLimit_of_opened (fun hf => by cases hf) ?_ h
    rintro f ⟨⟩
    exact ⟨n,rfl,rfl,fun t => ih⟩

theorem elements_exceed {element : Text → Except Refusal (β × Text)} {closing : UInt16} {G : β → Prop}
    {ps : List (Piece β)} (hspaced : ∀ p ∈ ps, p.Spaced)
    (hstarts : ∀ p ∈ ps, ∃ c w, p.text = c :: w ∧ isBlank c = false ∧ c ≠ closing)
    (hread : ∀ p ∈ ps, ∀ r, Delimited r → Reads (element (p.before ++ (p.text ++ r))) (G p.value) (p.value,r))
    {t : Text} (ht : Exceeds (element t)) (hhead : ∃ c r, skipSpace t = c :: r ∧ c ≠ closing) :
    Exceeds (elements element closing (begun ps ++ t)) := by
  obtain ⟨d,r,hd,hne⟩ := hhead
  have hlen : ps.length < (begun ps ++ t).length := by
    have h := length_begun ps
    cases t with
    | nil => cases hd
    | cons c t =>
      rw [List.length_append,List.length_cons]
      omega
  rw [elements,if_neg]
  · exact sequence_exceeds hspaced hread ht hlen
  · cases ps with
    | nil =>
      rw [show begun ([] : List (Piece β)) ++ t = t from rfl,hd,List.head?_cons,Option.some.injEq]
      exact hne
    | cons p ps =>
      obtain ⟨c,w,hw,hc,hclosing⟩ := hstarts p List.mem_cons_self
      have hskip : skipSpace (begun (p :: ps) ++ t) = c :: (w ++ (p.after ++ 44 :: (begun ps ++ t))) := by
        rw [begun_cons,hw]
        refine skipSpace_append (hspaced p List.mem_cons_self).1 ?_
        rintro e ⟨⟩
        exact hc
      rw [hskip,List.head?_cons,Option.some.injEq]
      exact hclosing

theorem exceeds_of_expects {k : ℕ} {t s : Text} (h : Expects S.Denotes k t s) {n : ℕ}
    (hs : k = n ∧ Opens s ∨ S.Overflows s) : Exceeds (S.value n t) := by
  have hrecursion : Exceeds (.error .recursion : Except Refusal (Tree α × Text)) := ⟨.recursion,rfl,by decide⟩
  have hskip : ∀ {b : Text} {c : UInt16} {t : Text}, Blank b → isBlank c = false →
      skipSpace (b ++ c :: t) = c :: t := by
    intro b c t hb hc
    refine skipSpace_append hb ?_
    rintro d ⟨⟩
    exact hc
  induction h generalizing n with
  | @here b s hb =>
    rcases hs with ⟨rfl,hopen⟩ | hover
    · rcases hopen with hopen | hopen
      · rw [← List.cons_head?_tail hopen,value,opened,hskip hb (by decide)]
        exact hrecursion
      · rw [← List.cons_head?_tail hopen,value,opened,hskip hb (by decide)]
        exact hrecursion
    · have hscan := (S.overflows s).mpr hover
      obtain ⟨c,t,rfl,hc⟩ := S.overflows_starts hover
      obtain ⟨inside,hinside⟩ := S.exists_opened n
      have harr : c ≠ 91 := by
        rintro rfl
        exact absurd hc (by decide)
      have hobj : c ≠ 123 := by
        rintro rfl
        exact absurd hc (by decide)
      simp only [startsLeaf,Bool.and_eq_true,Bool.not_eq_true'] at hc
      rw [hinside,opened,hskip hb hc.1]
      simp only [if_neg harr,if_neg hobj]
      exact exceeds_map.mpr hscan
  | @arr b t s k ps hb hspaced hv h ih =>
    cases n with
    | zero =>
      rw [value,opened,hskip hb (by decide)]
      exact hrecursion
    | succ n =>
      rw [value,opened,hskip hb (by decide)]
      have ht := ih (n := n) (hs.imp_left fun h => ⟨Nat.succ.inj h.1,h.2⟩)
      obtain ⟨c,r,hc,hstart⟩ := S.head_of_exceeds ht
      refine exceeds_map.mpr (elements_exceed (G := S.Within n) hspaced (fun p hp => ?_) (fun p hp r hr => ?_) ht
        ⟨c,r,hc,?_⟩)
      · obtain ⟨c,w,hw,hc,hne,-⟩ := S.value_starts (hv p hp)
        exact ⟨c,w,hw,hc,hne⟩
      · exact S.value_complete (hv p hp) (hspaced p hp).1 hr
      · rintro rfl
        rcases hstart with h | h | h <;> exact absurd h (by decide)
  | @obj b b' w name gap t s k ms hb hspaced hspelled hv hb' hw hgap h ih =>
    cases n with
    | zero =>
      rw [value,opened,hskip hb (by decide)]
      exact hrecursion
    | succ n =>
      rw [value,opened,hskip hb (by decide)]
      have ht := ih (n := n) (hs.imp_left fun h => ⟨Nat.succ.inj h.1,h.2⟩)
      have hmember : Exceeds (member (S.value n) (b' ++ 34 :: (w ++ 34 :: (gap ++ 58 :: t)))) := by
        rw [member,memberName_complete hb' hw hgap]
        exact exceeds_bind.mpr (Or.inr ⟨_,rfl,exceeds_bind.mpr (Or.inl ht)⟩)
      refine exceeds_map.mpr (elements_exceed (G := fun m => S.Within n m.2) (List.forall_mem_map.mpr hspaced)
        (List.forall_mem_map.mpr fun m _ => ⟨34,_,rfl,by decide,by decide⟩)
        (List.forall_mem_map.mpr fun m hm r hr => ?_) hmember ⟨34,_,hskip hb' (by decide),by decide⟩)
      exact member_complete (hspelled m hm) (hspaced m hm).1
        (S.value_complete (hv m hm) (hspelled m hm).2.2 hr)

theorem exceeds_document {n : ℕ} {t : Text} : Exceeds (S.document n t) ↔ S.PassesLimit n t := by
  constructor
  · intro h
    rcases exceeds_bind.mp h with h | ⟨v,-,h⟩
    · exact S.passesLimit_of_exceeds h
    · split_ifs at h
      · exact absurd h (not_exceeds_ok _)
      · exact absurd h not_exceeds_malformed
  · rintro ⟨k,s,hs,hcase⟩
    exact exceeds_bind.mpr (Or.inl (S.exceeds_of_expects hs hcase))

end Leaf

end Oidc4acLab.Scanner
