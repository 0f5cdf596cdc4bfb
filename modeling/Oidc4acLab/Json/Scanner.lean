import Oidc4acLab.Fallible.Success
import Oidc4acLab.Json.Document

/-! # Scanning JSON texts within limits

A scanner for trees over a scanner for leaves. It refuses a text at the first place
where the text leaves the grammar or a limit is passed; each refusal says which. What
it reads is what the grammar says, and a refusal for a limit is found at a place that
the text reaches by the grammar.
-/
namespace Oidc4acLab.Scanner
open Text Json Document Fallible

inductive Refusal
  | malformed
  | digits
  | recursion
  deriving DecidableEq

variable {α β γ : Type}

/-- The result is `b` where the limits are kept, and a refusal for a limit elsewhere. -/
def Reads (x : Except Refusal β) (P : Prop) (b : β) : Prop :=
  (P → x = .ok b) ∧ (¬ P → ∃ e, x = .error e ∧ e ≠ .malformed)

def Exceeds (x : Except Refusal β) : Prop := ∃ e, x = .error e ∧ e ≠ .malformed

theorem Reads.ok (b : β) : Reads (.ok b) True b := ⟨fun _ => rfl,fun h => absurd trivial h⟩

theorem Reads.of_iff {x : Except Refusal β} {P Q : Prop} {b : β} (h : Reads x P b) (hPQ : P ↔ Q) : Reads x Q b := by
  rwa [← propext hPQ]

theorem Reads.bind {x : Except Refusal β} {f : β → Except Refusal γ} {P Q : Prop} {b : β} {c : γ}
    (hx : Reads x P b) (hf : P → Reads (f b) Q c) : Reads (x >>= f) (P ∧ Q) c := by
  by_cases hP : P
  · rw [hx.1 hP]
    exact (hf hP).of_iff (and_iff_right hP).symm
  · obtain ⟨e,he,hne⟩ := hx.2 hP
    rw [he]
    exact ⟨fun h => absurd h.1 hP,fun _ => ⟨e,rfl,hne⟩⟩

theorem Reads.map {x : Except Refusal β} {P : Prop} {b : β} (hx : Reads x P b) (f : β → γ) :
    Reads (x.map f) P (f b) := by
  refine ⟨fun h => ?_,fun h => ?_⟩
  · rw [hx.1 h]
    rfl
  · obtain ⟨e,he,hne⟩ := hx.2 h
    exact ⟨e,by rw [he]; rfl,hne⟩

theorem exceeds_map {x : Except Refusal β} {f : β → γ} : Exceeds (x.map f) ↔ Exceeds x := by
  cases x <;> simp [Exceeds,Except.map]

theorem exceeds_bind {x : Except Refusal β} {f : β → Except Refusal γ} :
    Exceeds (x >>= f) ↔ Exceeds x ∨ ∃ b, x = .ok b ∧ Exceeds (f b) := by
  cases x <;> simp [Exceeds,Bind.bind,Except.bind]

theorem not_exceeds_ok (b : β) : ¬ Exceeds (.ok b : Except Refusal β) := by
  rintro ⟨e,he,-⟩
  cases he

theorem not_exceeds_malformed : ¬ Exceeds (.error .malformed : Except Refusal β) := by
  rintro ⟨e,he,hne⟩
  cases he
  exact hne rfl

theorem blank_skipSpace (t : Text) : ∃ b, t = b ++ skipSpace t ∧ Blank b := by
  refine ⟨t.takeWhile isBlank,List.takeWhile_append_dropWhile.symm,?_⟩
  intro c hc
  exact List.mem_takeWhile_imp hc

theorem skipSpace_append {b t : Text} (hb : Blank b) (ht : ∀ c, t.head? = some c → isBlank c = false) :
    skipSpace (b ++ t) = t := by
  have hdrop : (b ++ t).dropWhile isBlank = t.dropWhile isBlank := List.dropWhile_append_of_pos hb
  show (b ++ t).dropWhile isBlank = t
  rw [hdrop]
  cases t with
  | nil => rfl
  | cons c t => exact List.dropWhile_cons_of_neg (by simp [ht c rfl])

theorem skipSpace_blank {b : Text} (hb : Blank b) : skipSpace b = [] := by
  have h := skipSpace_append (t := []) hb (by simp)
  rwa [List.append_nil] at h

def Delimited (r : Text) : Prop := ∀ c, r.head? = some c → isBlank c = true ∨ c = 44 ∨ c = 93 ∨ c = 125

theorem Delimited.blank_append {b r : Text} (hb : Blank b) (hr : Delimited r) : Delimited (b ++ r) := by
  cases b with
  | nil => exact hr
  | cons d b =>
    intro c hc
    rw [List.cons_append,List.head?_cons,Option.some.injEq] at hc
    exact Or.inl (hc ▸ hb d List.mem_cons_self)

theorem delimited_cons {c : UInt16} (h : c = 44 ∨ c = 93 ∨ c = 125) (r : Text) : Delimited (c :: r) := by
  intro d hd
  rw [List.head?_cons,Option.some.injEq] at hd
  exact Or.inr (hd ▸ h)

/-- Elements up to the closing unit; every element but the last is followed by a comma. -/
def sequence (element : Text → Except Refusal (β × Text)) (closing : UInt16) :
    ℕ → Text → Except Refusal (List β × Text)
  | 0, _ => .error .malformed
  | n+1, t => do
    let v ← element t
    match skipSpace v.2 with
    | [] => .error .malformed
    | c :: r =>
      if c = 44 then do
        let vs ← sequence element closing n r
        return (v.1 :: vs.1,vs.2)
      else if c = closing then return ([v.1],r)
      else .error .malformed

theorem sequence_sound {element : Text → Except Refusal (β × Text)} {closing : UInt16} {E : Text → β → Prop}
    (helement : ∀ t v r, element t = .ok (v,r) → ∃ b w, t = b ++ (w ++ r) ∧ Blank b ∧ E w v) {n : ℕ} {t r : Text}
    {vs : List β} (h : sequence element closing n t = .ok (vs,r)) :
    ∃ ps : List (Piece β), ps ≠ [] ∧ t = joined ps ++ closing :: r ∧ vs = ps.map Piece.value ∧
      ∀ p ∈ ps, p.Spaced ∧ E p.text p.value := by
  induction n generalizing t r vs with
  | zero => cases h
  | succ n ih =>
    obtain ⟨⟨v,r'⟩,hv,hloop⟩ := bind_eq_ok.mp h
    obtain ⟨b,w,rfl,hb,hw⟩ := helement _ _ _ hv
    obtain ⟨a,hr',ha⟩ := blank_skipSpace r'
    simp only at hloop
    split at hloop
    · cases hloop
    · next c r'' hskip =>
      rw [hskip] at hr'
      split_ifs at hloop with hcomma hclosing
      · obtain ⟨⟨us,r3⟩,hus,heq⟩ := bind_eq_ok.mp hloop
        cases heq
        obtain ⟨ps,hne,rfl,rfl,hps⟩ := ih hus
        obtain ⟨q,qs,rfl⟩ := List.exists_cons_of_ne_nil hne
        refine ⟨⟨b,w,a,v⟩ :: q :: qs,List.cons_ne_nil _ _,?_,rfl,?_⟩
        · rw [joined_cons_cons,hr',hcomma]
          simp
        · intro p hp
          rcases List.mem_cons.mp hp with rfl | hp
          · exact ⟨⟨hb,ha⟩,hw⟩
          · exact hps p hp
      · cases hloop
        refine ⟨[⟨b,w,a,v⟩],List.cons_ne_nil _ _,?_,rfl,?_⟩
        · rw [joined_singleton,hr',hclosing]
          simp
        · intro p hp
          rw [List.mem_singleton.mp hp]
          exact ⟨⟨hb,ha⟩,hw⟩

section Complete
variable {element : Text → Except Refusal (β × Text)} {closing : UInt16} {G : β → Prop}

theorem sequence_step {p : Piece β} (hp : p.Spaced)
    (hread : ∀ r, Delimited r → Reads (element (p.before ++ (p.text ++ r))) (G p.value) (p.value,r)) {n : ℕ}
    {rest r : Text} {vs : List β} {P : Prop} (hrest : Reads (sequence element closing n rest) P (vs,r)) :
    Reads (sequence element closing (n+1) (p.before ++ (p.text ++ (p.after ++ 44 :: rest)))) (G p.value ∧ P)
      (p.value :: vs,r) := by
  rw [sequence]
  refine (hread _ ((delimited_cons (Or.inl rfl) rest).blank_append hp.2)).bind fun _ => ?_
  have hstart : ∀ c, (44 :: rest).head? = some c → isBlank c = false := by
    rintro c ⟨⟩
    decide
  simp only [skipSpace_append hp.2 hstart,↓reduceIte]
  exact (hrest.bind fun _ => Reads.ok (p.value :: vs,r)).of_iff (and_iff_left trivial)

theorem sequence_complete (hclosing : closing = 93 ∨ closing = 125) {ps : List (Piece β)} (hne : ps ≠ [])
    (hspaced : ∀ p ∈ ps, p.Spaced)
    (hread : ∀ p ∈ ps, ∀ r, Delimited r → Reads (element (p.before ++ (p.text ++ r))) (G p.value) (p.value,r))
    {close r : Text} (hclose : Blank close) {n : ℕ} (hn : ps.length ≤ n) :
    Reads (sequence element closing n (joined ps ++ (close ++ closing :: r))) (∀ p ∈ ps, G p.value)
      (ps.map Piece.value,r) := by
  induction ps generalizing n with
  | nil => exact absurd rfl hne
  | cons p ps ih =>
    obtain ⟨n,rfl⟩ := Nat.exists_eq_add_of_le' (Nat.le_trans (Nat.le_add_left 1 ps.length) hn)
    have hp := hspaced p List.mem_cons_self
    cases ps with
    | nil =>
      have hstart : ∀ c, (closing :: r).head? = some c → isBlank c = false := by
        rintro c ⟨⟩
        rcases hclosing with rfl | rfl <;> decide
      have hcomma : closing ≠ 44 := by
        rcases hclosing with rfl | rfl <;> decide
      have hblank : Blank (p.after ++ close) := hp.2.append hclose
      rw [joined_singleton,List.append_assoc,List.append_assoc,← List.append_assoc p.after,sequence]
      refine ((hread p List.mem_cons_self _
        ((delimited_cons (Or.inr hclosing) r).blank_append hblank)).bind (Q := True) fun _ => ?_).of_iff (by simp)
      simp only [skipSpace_append hblank hstart,if_neg hcomma,↓reduceIte]
      exact Reads.ok _
    | cons q qs =>
      have hrest := ih (List.cons_ne_nil q qs) (fun p hp => hspaced p (List.mem_cons_of_mem _ hp))
        (fun p hp => hread p (List.mem_cons_of_mem _ hp)) (n := n) (by simp only [List.length_cons] at hn ⊢; omega)
      have hstep := sequence_step hp (hread p List.mem_cons_self) hrest
      rw [joined_cons_cons]
      simp only [List.append_assoc,List.cons_append]
      exact hstep.of_iff (by simp)

end Complete

/-- A unit that can start a leaf: no blank, no bracket, no byte order mark. -/
def startsLeaf (c : UInt16) : Bool := !isBlank c && !([91,93,123,125,0xFEFF] : Text).contains c

/-- A scanner for leaves that refuses those beyond its limit, with the texts and the limit it
stands for. -/
structure Leaf (α : Type) where
  Denotes : Text → α → Prop
  Fits : α → Prop
  Overflows : Text → Prop
  scan : Text → Except Refusal (α × Text)
  starts : ∀ {w a}, Denotes w a → ∃ c w', w = c :: w' ∧ startsLeaf c = true
  sound : ∀ {t a r}, scan t = .ok (a,r) → ∃ w, t = w ++ r ∧ Denotes w a ∧ Fits a
  complete : ∀ {w a r}, Denotes w a → Delimited r → Reads (scan (w ++ r)) (Fits a) (a,r)
  overflows : ∀ t, Exceeds (scan t) ↔ Overflows t
  overflows_starts : ∀ {t}, Overflows t → ∃ c t', t = c :: t' ∧ startsLeaf c = true

namespace Leaf
variable (S : Leaf α)

def memberName (t : Text) : Except Refusal (Text × Text) :=
  if (skipSpace t).head? = some 34 then
    match parseString (skipSpace t).tail with
    | none => .error .malformed
    | some (name,r) =>
      if (skipSpace r).head? = some 58 then .ok (name,(skipSpace r).tail) else .error .malformed
  else .error .malformed

def member (inside : Text → Except Refusal (Tree α × Text)) (t : Text) :
    Except Refusal ((Text × Tree α) × Text) := do
  let name ← memberName t
  let v ← inside name.2
  return ((name.1,v.1),v.2)

/-- The elements behind an opening bracket; each of them takes up at least one unit. -/
def elements {β : Type} (element : Text → Except Refusal (β × Text)) (closing : UInt16) (t : Text) :
    Except Refusal (List β × Text) :=
  if (skipSpace t).head? = some closing then .ok ([],(skipSpace t).tail) else sequence element closing t.length t

/-- A value, whose items are read by `inside`; `none` if no array or object may be opened. -/
def opened (inside : Option (Text → Except Refusal (Tree α × Text))) (t : Text) :
    Except Refusal (Tree α × Text) :=
  match skipSpace t with
  | [] => .error .malformed
  | c :: r =>
    if c = 91 then
      match inside with
      | none => .error .recursion
      | some f => (elements f 93 r).map fun v => (.arr v.1,v.2)
    else if c = 123 then
      match inside with
      | none => .error .recursion
      | some f => (elements (member f) 125 r).map fun v => (.obj v.1,v.2)
    else (S.scan (c :: r)).map fun v => (.leaf v.1,v.2)

/-- A value with at most so many arrays and objects open at once. -/
def value : ℕ → Text → Except Refusal (Tree α × Text)
  | 0 => S.opened none
  | n+1 => S.opened (some (value n))

/-- A whole text. -/
def document (n : ℕ) (t : Text) : Except Refusal (Tree α) := do
  let v ← S.value n t
  if skipSpace v.2 = [] then .ok v.1 else .error .malformed

def Within (n : ℕ) (d : Tree α) : Prop := d.Nested n ∧ d.Every S.Fits fun _ => True

theorem within_leaf {n : ℕ} {a : α} : S.Within n (.leaf a) ↔ S.Fits a := by
  simp [Within,Tree.Nested.leaf]

theorem within_arr {n : ℕ} {items : List (Tree α)} :
    S.Within (n+1) (.arr items) ↔ ∀ d ∈ items, S.Within n d := by
  constructor
  · rintro ⟨hn,he⟩ d hd
    cases hn with
    | arr hn => exact ⟨hn d hd,Tree.every_arr.mp he d hd⟩
  · intro h
    exact ⟨.arr fun d hd => (h d hd).1,.arr fun d hd => (h d hd).2⟩

theorem within_obj {n : ℕ} {members : List (Text × Tree α)} :
    S.Within (n+1) (.obj members) ↔ ∀ m ∈ members, S.Within n m.2 := by
  constructor
  · rintro ⟨hn,he⟩ m hm
    cases hn with
    | obj hn => exact ⟨hn m hm,(Tree.every_obj.mp he).2 m hm⟩
  · intro h
    exact ⟨.obj fun m hm => (h m hm).1,.obj trivial fun m hm => (h m hm).2⟩

theorem value_starts {t : Text} {d : Tree α} (h : Value S.Denotes t d) :
    ∃ c w, t = c :: w ∧ isBlank c = false ∧ c ≠ 93 ∧ c ≠ 125 ∧ c ≠ 0xFEFF := by
  cases h with
  | leaf h =>
    obtain ⟨c,w,rfl,hc⟩ := S.starts h
    simp only [startsLeaf,Bool.and_eq_true,Bool.not_eq_true'] at hc
    exact ⟨c,w,rfl,hc.1,by rintro rfl; simp at hc,by rintro rfl; simp at hc,by rintro rfl; simp at hc⟩
  | arr => exact ⟨91,_,rfl,by decide,by decide,by decide,by decide⟩
  | obj => exact ⟨123,_,rfl,by decide,by decide,by decide,by decide⟩

theorem memberName_sound {t name r : Text} (h : memberName t = .ok (name,r)) :
    ∃ b w gap, t = b ++ 34 :: (w ++ 34 :: (gap ++ 58 :: r)) ∧ Blank b ∧ Chars w name ∧ Blank gap := by
  obtain ⟨b,ht,hb⟩ := blank_skipSpace t
  rw [memberName] at h
  split_ifs at h with hquote
  split at h
  · cases h
  · next name' r' hstring =>
    split_ifs at h with hcolon
    cases h
    obtain ⟨gap,hr',hgap⟩ := blank_skipSpace r'
    obtain ⟨w,hw,hchars⟩ := parseString_sound hstring
    refine ⟨b,w,gap,?_,hb,hchars,hgap⟩
    rw [List.cons_head?_tail hcolon,← hr',← hw,List.cons_head?_tail hquote]
    exact ht

def MemberText (L : Text → α → Prop) (w : Text) (v : Text × Tree α) : Prop :=
  ∃ m : Member α, m.piece.text = w ∧ m.piece.value = v ∧ m.Spelled ∧ Value L m.text m.value

theorem member_sound {f : Text → Except Refusal (Tree α × Text)} {L : Text → α → Prop} {P : Tree α → Prop}
    (hf : ∀ t v r, f t = .ok (v,r) → ∃ b w, t = b ++ (w ++ r) ∧ Blank b ∧ Value L w v ∧ P v) {t : Text}
    {v : Text × Tree α} {r : Text} (h : member f t = .ok (v,r)) :
    ∃ b w, t = b ++ (w ++ r) ∧ Blank b ∧ MemberText L w v ∧ P v.2 := by
  obtain ⟨⟨name,r1⟩,hname,h1⟩ := bind_eq_ok.mp h
  obtain ⟨⟨d,r2⟩,hd,h2⟩ := bind_eq_ok.mp h1
  cases h2
  obtain ⟨b,w,gap,ht,hb,hchars,hgap⟩ := memberName_sound hname
  obtain ⟨b',w',hr1,hb',hw',hP⟩ := hf _ _ _ hd
  simp only at hr1
  subst hr1 ht
  refine ⟨b,_,?_,hb,⟨⟨[],w,name,gap,b',w',[],d⟩,rfl,rfl,⟨hchars,hgap,hb'⟩,hw'⟩,hP⟩
  simp [Member.piece]

theorem elements_sound {element : Text → Except Refusal (β × Text)} {closing : UInt16} {E : Text → β → Prop}
    (helement : ∀ t v r, element t = .ok (v,r) → ∃ b w, t = b ++ (w ++ r) ∧ Blank b ∧ E w v) {t r : Text}
    {vs : List β} (h : elements element closing t = .ok (vs,r)) :
    ∃ (ps : List (Piece β)) (close : Text), t = joined ps ++ (close ++ closing :: r) ∧ Blank close ∧
      vs = ps.map Piece.value ∧ ∀ p ∈ ps, p.Spaced ∧ E p.text p.value := by
  rw [elements] at h
  split_ifs at h with hclosing
  · cases h
    obtain ⟨b,ht,hb⟩ := blank_skipSpace t
    refine ⟨[],b,?_,hb,rfl,by simp⟩
    rw [List.cons_head?_tail hclosing]
    exact ht
  · obtain ⟨ps,-,ht,hvs,hps⟩ := sequence_sound helement h
    exact ⟨ps,[],ht,blank_nil,hvs,hps⟩

theorem exists_map_eq {γ δ : Type} {f : γ → δ} {P : γ → Prop} {ys : List δ} (h : ∀ y ∈ ys, ∃ x, f x = y ∧ P x) :
    ∃ xs : List γ, xs.map f = ys ∧ ∀ x ∈ xs, P x := by
  induction ys with
  | nil => exact ⟨[],rfl,by simp⟩
  | cons y ys ih =>
    obtain ⟨x,rfl,hx⟩ := h y List.mem_cons_self
    obtain ⟨xs,rfl,hxs⟩ := ih fun z hz => h z (List.mem_cons_of_mem _ hz)
    exact ⟨x :: xs,rfl,List.forall_mem_cons.mpr ⟨hx,hxs⟩⟩

theorem opened_sound {n : ℕ} {inside : Option (Text → Except Refusal (Tree α × Text))}
    (hinside : ∀ f, inside = some f → ∃ k, n = k+1 ∧ ∀ t v r, f t = .ok (v,r) →
      ∃ b w, t = b ++ (w ++ r) ∧ Blank b ∧ Value S.Denotes w v ∧ S.Within k v) {t r : Text} {v : Tree α}
    (h : S.opened inside t = .ok (v,r)) :
    ∃ b w, t = b ++ (w ++ r) ∧ Blank b ∧ Value S.Denotes w v ∧ S.Within n v := by
  obtain ⟨b,ht,hb⟩ := blank_skipSpace t
  rw [opened] at h
  split at h
  · cases h
  · next c t' hskip =>
    rw [hskip] at ht
    split_ifs at h with harr hobj
    · cases inside with
      | none => cases h
      | some f =>
        obtain ⟨k,rfl,hf⟩ := hinside f rfl
        obtain ⟨⟨vs,r'⟩,hvs,heq⟩ := map_eq_ok.mp h
        cases heq
        obtain ⟨ps,close,ht',hclose,rfl,hps⟩ := elements_sound hf hvs
        refine ⟨b,_,?_,hb,.arr hclose (fun p hp => (hps p hp).1) fun p hp => (hps p hp).2.1,
          S.within_arr.mpr (List.forall_mem_map.mpr fun p hp => (hps p hp).2.2)⟩
        rw [ht,ht',harr]
        simp
    · cases inside with
      | none => cases h
      | some f =>
        obtain ⟨k,rfl,hf⟩ := hinside f rfl
        obtain ⟨⟨vs,r'⟩,hvs,heq⟩ := map_eq_ok.mp h
        cases heq
        obtain ⟨ps,close,ht',hclose,rfl,hps⟩ :=
          elements_sound (fun t v r => member_sound hf) hvs
        obtain ⟨ms,rfl,hms⟩ : ∃ ms : List (Member α), ms.map Member.piece = ps ∧
            ∀ m ∈ ms, m.piece.Spaced ∧ m.Spelled ∧ Value S.Denotes m.text m.value ∧ S.Within k m.value := by
          refine exists_map_eq fun p hp => ?_
          obtain ⟨hspaced,⟨m,htext,hvalue,hspelled,hv⟩,hwithin⟩ := hps p hp
          rw [← hvalue] at hwithin
          exact ⟨{ m with before := p.before, after := p.after },by cases p; cases htext; cases hvalue; rfl,hspaced,hspelled,
            hv,hwithin⟩
        rw [List.map_map]
        refine ⟨b,_,?_,hb,.obj hclose (fun m hm => (hms m hm).1) (fun m hm => (hms m hm).2.1)
          fun m hm => (hms m hm).2.2.1,S.within_obj.mpr (List.forall_mem_map.mpr fun m hm => (hms m hm).2.2.2)⟩
        rw [ht,ht',hobj]
        simp
    · obtain ⟨⟨a,r'⟩,ha,heq⟩ := map_eq_ok.mp h
      cases heq
      obtain ⟨w,hw,hdenotes,hfits⟩ := S.sound ha
      exact ⟨b,w,by rw [ht,hw],hb,.leaf hdenotes,S.within_leaf.mpr hfits⟩

theorem value_sound {n : ℕ} {t r : Text} {v : Tree α} (h : S.value n t = .ok (v,r)) :
    ∃ b w, t = b ++ (w ++ r) ∧ Blank b ∧ Value S.Denotes w v ∧ S.Within n v := by
  induction n generalizing t r v with
  | zero => exact S.opened_sound (by simp) h
  | succ n ih =>
    refine S.opened_sound ?_ h
    rintro f ⟨⟩
    exact ⟨n,rfl,fun t v r => ih⟩

theorem document_sound {n : ℕ} {t : Text} {d : Tree α} (h : S.document n t = .ok d) :
    Whole S.Denotes t d ∧ S.Within n d := by
  obtain ⟨⟨v,r⟩,hv,h⟩ := bind_eq_ok.mp h
  simp only at h
  split_ifs at h with hr
  cases h
  obtain ⟨b,w,rfl,hb,hw,hwithin⟩ := S.value_sound hv
  obtain ⟨a,ha,hblank⟩ := blank_skipSpace r
  rw [hr,List.append_nil] at ha
  exact ⟨⟨b,w,r,rfl,hb,ha ▸ hblank,hw⟩,hwithin⟩

theorem memberName_complete {b w name gap : Text} (hb : Blank b) (hw : Chars w name) (hgap : Blank gap)
    (r : Text) : memberName (b ++ 34 :: (w ++ 34 :: (gap ++ 58 :: r))) = .ok (name,r) := by
  have hstart : ∀ (d : UInt16) (t : Text), isBlank d = false → ∀ c, (d :: t).head? = some c → isBlank c = false := by
    rintro d t hd c ⟨⟩
    exact hd
  rw [memberName,skipSpace_append hb (hstart 34 _ (by decide)),if_pos List.head?_cons,List.tail_cons,
    parseString_complete hw]
  simp only [skipSpace_append hgap (hstart 58 r (by decide)),List.head?_cons,↓reduceIte,List.tail_cons]

theorem member_complete {f : Text → Except Refusal (Tree α × Text)} {m : Member α} {P : Prop}
    (hm : m.Spelled) {b r : Text} (hb : Blank b)
    (hf : Reads (f (m.colonAfter ++ (m.text ++ r))) P (m.value,r)) :
    Reads (member f (b ++ (m.piece.text ++ r))) P ((m.name,m.value),r) := by
  have htext : b ++ (m.piece.text ++ r) =
      b ++ 34 :: (m.nameText ++ 34 :: (m.colonBefore ++ 58 :: (m.colonAfter ++ (m.text ++ r)))) := by
    simp [Member.piece]
  rw [htext,member,memberName_complete hb hm.1 hm.2.1]
  exact (hf.bind fun _ => Reads.ok ((m.name,m.value),r)).of_iff (and_iff_left trivial)

theorem elements_complete {element : Text → Except Refusal (β × Text)} {closing : UInt16} {G : β → Prop}
    (hclosing : closing = 93 ∨ closing = 125) {ps : List (Piece β)} (hspaced : ∀ p ∈ ps, p.Spaced)
    (hstarts : ∀ p ∈ ps, ∃ c w, p.text = c :: w ∧ isBlank c = false ∧ c ≠ closing)
    (hread : ∀ p ∈ ps, ∀ r, Delimited r → Reads (element (p.before ++ (p.text ++ r))) (G p.value) (p.value,r))
    {close : Text} (hclose : Blank close) (r : Text) :
    Reads (elements element closing (joined ps ++ (close ++ closing :: r))) (∀ p ∈ ps, G p.value)
      (ps.map Piece.value,r) := by
  have hblank : ∀ c, (closing :: r).head? = some c → isBlank c = false := by
    rintro c ⟨⟩
    rcases hclosing with rfl | rfl <;> decide
  cases ps with
  | nil =>
    rw [elements,show joined ([] : List (Piece β)) = [] from rfl,List.nil_append,
      skipSpace_append hclose hblank,if_pos List.head?_cons]
    exact (Reads.ok _).of_iff (by simp)
  | cons p ps =>
    obtain ⟨c,w,hw,hc,hne⟩ := hstarts p List.mem_cons_self
    have hhead : ∃ t, joined (p :: ps) ++ (close ++ closing :: r) = p.before ++ (c :: t) := by
      cases ps with
      | nil => exact ⟨w ++ (p.after ++ (close ++ closing :: r)),by simp [joined_singleton,hw]⟩
      | cons q qs =>
        exact ⟨w ++ (p.after ++ 44 :: (joined (q :: qs) ++ (close ++ closing :: r))),by
          simp [joined_cons_cons,hw]⟩
    obtain ⟨t,ht⟩ := hhead
    have hskip : skipSpace (joined (p :: ps) ++ (close ++ closing :: r)) = c :: t := by
      rw [ht]
      refine skipSpace_append (hspaced p List.mem_cons_self).1 ?_
      rintro d ⟨⟩
      exact hc
    have hlength : ∀ qs : List (Piece β), qs.length ≤ (joined qs).length+1 := by
      intro qs
      induction qs with
      | nil => simp
      | cons q qs ih =>
        cases qs with
        | nil => simp
        | cons q' qs =>
          rw [joined_cons_cons]
          simp only [List.length_append,List.length_cons] at ih ⊢
          omega
    rw [elements,if_neg]
    · refine sequence_complete hclosing (List.cons_ne_nil p ps) hspaced hread hclose ?_
      have hl := hlength (p :: ps)
      simp only [List.length_append,List.length_cons] at hl ⊢
      omega
    · rw [hskip,List.head?_cons,Option.some.injEq]
      exact hne

/-- A text of the grammar is read within the limits and refused for a limit beyond them. -/
theorem value_complete {w : Text} {d : Tree α} (h : Value S.Denotes w d) {n : ℕ} {b r : Text} (hb : Blank b)
    (hr : Delimited r) : Reads (S.value n (b ++ (w ++ r))) (S.Within n d) (d,r) := by
  have hvalue : ∀ n, S.value n = S.opened (match n with | 0 => none | k+1 => some (S.value k)) := by
    intro n
    cases n <;> rfl
  induction h generalizing n b r with
  | @leaf w a h =>
    obtain ⟨c,w',rfl,hc⟩ := S.starts h
    simp only [startsLeaf,Bool.and_eq_true,Bool.not_eq_true'] at hc
    have hskip : skipSpace (b ++ (c :: w' ++ r)) = c :: (w' ++ r) := by
      refine skipSpace_append hb ?_
      rintro d ⟨⟩
      exact hc.1
    have harr : c ≠ 91 := by
      rintro rfl
      simp at hc
    have hobj : c ≠ 123 := by
      rintro rfl
      simp at hc
    rw [hvalue,opened,hskip]
    simp only [if_neg harr,if_neg hobj]
    exact ((S.complete h hr).map fun v => (Tree.leaf v.1,v.2)).of_iff S.within_leaf.symm
  | @arr ps close hclose hspaced hv ih =>
    have hskip : skipSpace (b ++ (91 :: (joined ps ++ (close ++ [93])) ++ r)) =
        91 :: (joined ps ++ (close ++ 93 :: r)) := by
      rw [skipSpace_append hb (by rintro d ⟨⟩; decide)]
      simp
    rw [hvalue,opened,hskip]
    simp only [↓reduceIte]
    cases n with
    | zero =>
      refine ⟨fun h => ?_,fun _ => ⟨.recursion,rfl,by decide⟩⟩
      cases h.1
    | succ n =>
      refine ((elements_complete (G := S.Within n) (Or.inl rfl) hspaced (fun p hp => ?_) (fun p hp r hr => ?_)
        hclose r).map fun v => (Tree.arr v.1,v.2)).of_iff ?_
      · obtain ⟨c,w,hw,hc,hne,-⟩ := S.value_starts (hv p hp)
        exact ⟨c,w,hw,hc,hne⟩
      · exact ih p hp (hspaced p hp).1 hr
      · rw [S.within_arr,List.forall_mem_map]
  | @obj ms close hclose hspaced hspelled hv ih =>
    have hskip : skipSpace (b ++ (123 :: (joined (ms.map Member.piece) ++ (close ++ [125])) ++ r)) =
        123 :: (joined (ms.map Member.piece) ++ (close ++ 125 :: r)) := by
      rw [skipSpace_append hb (by rintro d ⟨⟩; decide)]
      simp
    rw [hvalue,opened,hskip]
    simp only [show (123:UInt16) ≠ 91 by decide,↓reduceIte]
    cases n with
    | zero =>
      refine ⟨fun h => ?_,fun _ => ⟨.recursion,rfl,by decide⟩⟩
      cases h.1
    | succ n =>
      have hread : Reads (elements (member (S.value n)) 125 (joined (ms.map Member.piece) ++ (close ++ 125 :: r)))
          (∀ p ∈ ms.map Member.piece, S.Within n p.value.2) ((ms.map Member.piece).map Piece.value,r) :=
        elements_complete (G := fun m => S.Within n m.2) (Or.inr rfl) (List.forall_mem_map.mpr hspaced)
        (List.forall_mem_map.mpr fun m _ => ⟨34,_,rfl,by decide,by decide⟩)
        (List.forall_mem_map.mpr fun m hm r hr =>
          member_complete (hspelled m hm) (hspaced m hm).1 (ih m hm (hspelled m hm).2.2 hr)) hclose r
      rw [List.map_map] at hread
      refine (hread.map fun v => (Tree.obj v.1,v.2)).of_iff ?_
      rw [S.within_obj,List.forall_mem_map,List.forall_mem_map]
      rfl

theorem document_complete {n : ℕ} {t : Text} {d : Tree α} (h : Whole S.Denotes t d) :
    Reads (S.document n t) (S.Within n d) d := by
  obtain ⟨before,text,after,rfl,hb,ha,hv⟩ := h
  have hr : Delimited after := by
    have h := Delimited.blank_append (r := []) ha (by intro c hc; cases hc)
    rwa [List.append_nil] at h
  refine ((S.value_complete hv hb hr).bind fun _ => ?_).of_iff (and_iff_left trivial)
  simp only [skipSpace_blank ha,↓reduceIte]
  exact Reads.ok d

end Leaf

end Oidc4acLab.Scanner
