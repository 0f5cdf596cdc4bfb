import Oidc4acLab.Collections.Dictionaries

/-! # The forms of a page

The runner's `Forms` reads the tags that `HTMLParser` reports. A form that is opened while
another is open takes its place, and only an end tag keeps the form that is open, so what is
kept under an id is the last form with this id and no form tag inside.
-/
namespace Oidc4acLab.Runner
open Collections Dictionary

abbrev Attributes := Dictionary String (Option String)

inductive Tag
  | start (tag : String) (attrs : List (String × Option String))
  | stop (tag : String)
deriving DecidableEq

structure Form where
  action : Option String
  values : Attributes
deriving DecidableEq

structure Forms where
  forms : Dictionary String Form
  currentId : Option String
  currentAction : Option String
  currentValues : Attributes

namespace Forms

def init : Forms := ⟨[],none,some "",[]⟩

/-- An attribute where it is truthy. -/
def named (attributes : Attributes) (name : String) : Option String :=
  (attributes.lookup name).join.filter (· ≠ "")

/-- `attributes.get(name, "")` -/
def given (attributes : Attributes) (name : String) : Option String := (attributes.lookup name).getD (some "")

/-- The value of an `input` or a `button` with a name. -/
def field (values : Attributes) : Tag → Attributes
  | .start tag attrs =>
    if tag = "input" ∨ tag = "button" then
      match named (collect attrs) "name" with
      | some name => values.put (name,given (collect attrs) "value")
      | none => values
    else values
  | .stop _ => values

/-- `handle_starttag` and `handle_endtag` -/
def handle (p : Forms) : Tag → Forms
  | .start tag attrs =>
    if tag = "form" then
      { p with currentId := ((collect attrs).lookup "id").join, currentAction := given (collect attrs) "action",
               currentValues := [] }
    else if (p.currentId.filter (· ≠ "")).isSome then
      { p with currentValues := field p.currentValues (.start tag attrs) }
    else p
  | .stop tag =>
    match p.currentId.filter (· ≠ "") with
    | some id =>
      if tag = "form" then ⟨p.forms.put (id,⟨p.currentAction,p.currentValues⟩),none,some "",[]⟩ else p
    | none => p

end Forms

open Forms

/-- The page as the tags that `HTMLParser` reports. -/
def parseForms (page : List Tag) : Dictionary String Form := (page.foldl handle init).forms

def Tag.ofForm : Tag → Bool
  | .start tag _ => tag == "form"
  | .stop tag => tag == "form"

/-- The form between a start tag with these attributes and the end tag, around these tags. -/
def formOf (attrs : List (String × Option String)) (inside : List Tag) : Form :=
  ⟨given (collect attrs) "action",inside.foldl field []⟩

/-- Somewhere in the page stands this form with this id, and no tag of a form inside. -/
def Occurs (page : List Tag) (id : String) (form : Form) : Prop :=
  ∃ before attrs inside after, page = before ++ .start "form" attrs :: (inside ++ .stop "form" :: after) ∧
    (∀ t ∈ inside, t.ofForm = false) ∧ named (collect attrs) "id" = some id ∧ form = formOf attrs inside

/-- The last form of the page with this id. -/
def Last (page : List Tag) (id : String) (form : Form) : Prop :=
  ∃ before attrs inside after, page = before ++ .start "form" attrs :: (inside ++ .stop "form" :: after) ∧
    (∀ t ∈ inside, t.ofForm = false) ∧ named (collect attrs) "id" = some id ∧ form = formOf attrs inside ∧
    ∀ form', ¬ Occurs after id form'

def Ends (p : Forms) (page : List Tag) (id : String) (form : Form) : Prop :=
  p.currentId.filter (· ≠ "") = some id ∧ ∃ inside after, page = inside ++ .stop "form" :: after ∧
    (∀ t ∈ inside, t.ofForm = false) ∧ form = ⟨p.currentAction,inside.foldl field p.currentValues⟩

section Cons
variable {p : Forms} {t : Tag} {page : List Tag} {id : String} {form : Form}
  {attrs : List (String × Option String)}

theorem start_after_stop {inside after before rest : List Tag} {attrs : List (String × Option String)}
    (hin : ∀ t ∈ inside, t.ofForm = false)
    (h : inside ++ .stop "form" :: after = before ++ .start "form" attrs :: rest) :
    ∃ before', before = inside ++ .stop "form" :: before' ∧ after = before' ++ .start "form" attrs :: rest := by
  induction inside generalizing before with
  | nil =>
    cases before with
    | nil => cases h
    | cons b before =>
      obtain ⟨rfl,hrest⟩ := List.cons.inj h
      exact ⟨before,rfl,hrest⟩
  | cons t inside ih =>
    cases before with
    | nil =>
      obtain ⟨rfl,-⟩ := List.cons.inj h
      have hform := hin _ List.mem_cons_self
      cases hform
    | cons b before =>
      obtain ⟨rfl,hrest⟩ := List.cons.inj h
      obtain ⟨before',rfl,hafter⟩ := ih (fun t ht => hin t (List.mem_cons_of_mem _ ht)) hrest
      exact ⟨before',rfl,hafter⟩

theorem occurs_after {inside after : List Tag} (hin : ∀ t ∈ inside, t.ofForm = false) :
    Occurs (inside ++ .stop "form" :: after) id form ↔ Occurs after id form := by
  constructor
  · rintro ⟨before,attrs,inner,rest,h,hf⟩
    obtain ⟨before',-,hafter⟩ := start_after_stop hin h
    exact ⟨before',attrs,inner,rest,hafter,hf⟩
  · rintro ⟨before,attrs,inner,rest,rfl,hf⟩
    exact ⟨inside ++ .stop "form" :: before,attrs,inner,rest,by simp,hf⟩

theorem occurs_cons (ht : ∀ attrs, t ≠ .start "form" attrs) : Occurs (t :: page) id form ↔ Occurs page id form := by
  constructor
  · rintro ⟨before,attrs,inside,after,h,hf⟩
    cases before with
    | nil => exact absurd (List.cons.inj h).1 (ht attrs)
    | cons b before => exact ⟨before,attrs,inside,after,(List.cons.inj h).2,hf⟩
  · rintro ⟨before,attrs,inside,after,rfl,hf⟩
    exact ⟨t :: before,attrs,inside,after,rfl,hf⟩

theorem last_cons (ht : ∀ attrs, t ≠ .start "form" attrs) : Last (t :: page) id form ↔ Last page id form := by
  constructor
  · rintro ⟨before,attrs,inside,after,h,hf⟩
    cases before with
    | nil => exact absurd (List.cons.inj h).1 (ht attrs)
    | cons b before => exact ⟨before,attrs,inside,after,(List.cons.inj h).2,hf⟩
  · rintro ⟨before,attrs,inside,after,rfl,hf⟩
    exact ⟨t :: before,attrs,inside,after,rfl,hf⟩

theorem handle_start (p : Forms) (attrs : List (String × Option String)) : handle p (.start "form" attrs) =
    { p with currentId := ((collect attrs).lookup "id").join, currentAction := given (collect attrs) "action",
             currentValues := [] } := by
  rw [handle,if_pos rfl]

theorem occurs_start : Occurs (.start "form" attrs :: page) id form ↔
    Ends (handle p (.start "form" attrs)) page id form ∨ Occurs page id form := by
  rw [handle_start]
  constructor
  · rintro ⟨before,attrs',inside,after,h,hin,hid,rfl⟩
    cases before with
    | nil =>
      obtain ⟨heq,rfl⟩ := List.cons.inj h
      cases heq
      exact Or.inl ⟨hid,inside,after,rfl,hin,rfl⟩
    | cons b before => exact Or.inr ⟨before,attrs',inside,after,(List.cons.inj h).2,hin,hid,rfl⟩
  · rintro (⟨hid,inside,after,rfl,hin,rfl⟩ | ⟨before,attrs',inside,after,rfl,hf⟩)
    · exact ⟨[],attrs,inside,after,rfl,hin,hid,rfl⟩
    · exact ⟨.start "form" attrs :: before,attrs',inside,after,rfl,hf⟩

theorem last_start : Last (.start "form" attrs :: page) id form ↔
    Last page id form ∨ (∀ form', ¬ Occurs page id form') ∧ Ends (handle p (.start "form" attrs)) page id form := by
  rw [handle_start]
  constructor
  · rintro ⟨before,attrs',inside,after,h,hin,hid,rfl,hlast⟩
    cases before with
    | nil =>
      obtain ⟨heq,rfl⟩ := List.cons.inj h
      cases heq
      exact Or.inr ⟨fun form' ho => hlast form' ((occurs_after hin).mp ho),hid,inside,after,rfl,hin,rfl⟩
    | cons b before => exact Or.inl ⟨before,attrs',inside,after,(List.cons.inj h).2,hin,hid,rfl,hlast⟩
  · rintro (⟨before,attrs',inside,after,rfl,hf⟩ | ⟨hnone,hid,inside,after,rfl,hin,rfl⟩)
    · exact ⟨.start "form" attrs :: before,attrs',inside,after,rfl,hf⟩
    · exact ⟨[],attrs,inside,after,rfl,hin,hid,rfl,fun form' ho => hnone form' ((occurs_after hin).mpr ho)⟩

theorem ends_start : ¬ Ends p (.start "form" attrs :: page) id form := by
  rintro ⟨-,inside,after,h,hin,-⟩
  cases inside with
  | nil => cases h
  | cons t inside =>
    obtain ⟨rfl,-⟩ := List.cons.inj h
    have hform := hin _ List.mem_cons_self
    cases hform

theorem ends_stop : Ends p (.stop "form" :: page) id form ↔
    p.currentId.filter (· ≠ "") = some id ∧ form = ⟨p.currentAction,p.currentValues⟩ := by
  constructor
  · rintro ⟨hid,inside,after,h,hin,rfl⟩
    cases inside with
    | nil => exact ⟨hid,rfl⟩
    | cons t inside =>
      obtain ⟨rfl,-⟩ := List.cons.inj h
      have hform := hin _ List.mem_cons_self
      cases hform
  · rintro ⟨hid,rfl⟩
    exact ⟨hid,[],page,rfl,by simp,rfl⟩

theorem handle_stop (p : Forms) : handle p (.stop "form") =
    match p.currentId.filter (· ≠ "") with
    | some id => ⟨p.forms.put (id,⟨p.currentAction,p.currentValues⟩),none,some "",[]⟩
    | none => p := by
  rw [handle]
  cases p.currentId.filter (· ≠ "") with
  | none => rfl
  | some id => exact if_pos rfl

theorem handle_other (ht : t.ofForm = false) : (handle p t).forms = p.forms ∧
    (handle p t).currentId = p.currentId ∧ (handle p t).currentAction = p.currentAction ∧
    ((p.currentId.filter (· ≠ "")).isSome → (handle p t).currentValues = field p.currentValues t) := by
  cases t with
  | start tag attrs =>
    have hne : ¬ tag = "form" := by simpa [Tag.ofForm] using ht
    rw [handle,if_neg hne]
    split_ifs with hcurrent
    · exact ⟨rfl,rfl,rfl,fun _ => rfl⟩
    · exact ⟨rfl,rfl,rfl,fun h => absurd h hcurrent⟩
  | stop tag =>
    have hne : ¬ tag = "form" := by simpa [Tag.ofForm] using ht
    have hkeep : handle p (.stop tag) = p := by
      rw [handle]
      cases p.currentId.filter (· ≠ "") with
      | none => rfl
      | some id => exact if_neg hne
    rw [hkeep]
    exact ⟨rfl,rfl,rfl,fun _ => rfl⟩

theorem ends_other (ht : t.ofForm = false) : Ends p (t :: page) id form ↔ Ends (handle p t) page id form := by
  obtain ⟨-,hid,haction,hvalues⟩ := handle_other (p := p) ht
  rw [Ends,Ends,hid,haction]
  refine and_congr_right fun hcurrent => ?_
  rw [hvalues (by rw [hcurrent]; rfl)]
  constructor
  · rintro ⟨inside,after,h,hin,rfl⟩
    cases inside with
    | nil =>
      obtain ⟨rfl,-⟩ := List.cons.inj h
      cases ht
    | cons s inside =>
      obtain ⟨rfl,rfl⟩ := List.cons.inj h
      exact ⟨inside,after,rfl,fun s hs => hin s (List.mem_cons_of_mem _ hs),rfl⟩
  · rintro ⟨inside,after,rfl,hin,rfl⟩
    refine ⟨t :: inside,after,rfl,?_,rfl⟩
    rintro s (_ | ⟨_,hs⟩)
    · exact ht
    · exact hin s hs

end Cons

theorem not_last_nil (id : String) (form : Form) : ¬ Last [] id form := by
  rintro ⟨before,attrs,inside,after,h,-⟩
  cases before <;> cases h

/-- What is kept at the end of the page is the last form in it, else the one that it ends, else what was kept before. -/
theorem lookup_handled (page : List Tag) (p : Forms) (id : String) (form : Form) :
    (page.foldl handle p).forms.lookup id = some form ↔ Last page id form ∨ (∀ form', ¬ Occurs page id form') ∧
      (Ends p page id form ∨ (∀ form', ¬ Ends p page id form') ∧ p.forms.lookup id = some form) := by
  induction page generalizing p with
  | nil =>
    have hlast := not_last_nil id form
    have hoccurs : ∀ form', ¬ Occurs [] id form' := by
      rintro form' ⟨before,attrs,inside,after,h,-⟩
      cases before <;> cases h
    have hends : ∀ form', ¬ Ends p [] id form' := by
      rintro form' ⟨-,inside,after,h,-⟩
      cases inside <;> cases h
    simp [hlast,hoccurs,hends]
  | cons t page ih =>
    rw [List.foldl_cons,ih]
    by_cases hform : t.ofForm = true
    · cases t with
      | start tag attrs =>
        obtain rfl : tag = "form" := by simpa [Tag.ofForm] using hform
        have hkept : (handle p (.start "form" attrs)).forms = p.forms := by rw [handle_start]
        simp only [last_start (p := p),occurs_start (p := p),ends_start,hkept,not_or,forall_and]
        tauto
      | stop tag =>
        obtain rfl : tag = "form" := by simpa [Tag.ofForm] using hform
        have hne : ∀ attrs, Tag.stop "form" ≠ .start "form" attrs := nofun
        simp only [last_cons hne,occurs_cons hne,ends_stop,handle_stop]
        refine or_congr_right (and_congr_right fun _ => ?_)
        cases hcurrent : p.currentId.filter (· ≠ "") with
        | none =>
          have hends : ∀ form', ¬ Ends p page id form' := fun _ h => Option.some_ne_none _ (h.1.symm.trans hcurrent)
          simp [hends]
        | some current =>
          have hends : ∀ form', ¬ Ends ⟨p.forms.put (current,⟨p.currentAction,p.currentValues⟩),none,some "",[]⟩
              page id form' := fun _ h => Option.some_ne_none _ h.1.symm
          by_cases hid : id = current
          · subst hid
            simp [hends,lookup_put,eq_comm]
          · simp [hends,lookup_put,hid,Ne.symm hid]
    · have ht : t.ofForm = false := by simpa using hform
      have hne : ∀ attrs, t ≠ .start "form" attrs := by
        rintro attrs rfl
        cases ht
      obtain ⟨hforms,-⟩ := handle_other (p := p) ht
      simp only [last_cons hne,occurs_cons hne,ends_other ht,hforms]

theorem lookup_handled_init (page : List Tag) (id : String) (form : Form) :
    (page.foldl handle init).forms.lookup id = some form ↔ Last page id form := by
  have hends : ∀ form', ¬ Ends init page id form' := fun _ h => Option.some_ne_none _ h.1.symm
  rw [lookup_handled]
  constructor
  · rintro (h | ⟨-,h | ⟨-,h⟩⟩)
    · exact h
    · exact absurd h (hends form)
    · cases h
  · exact Or.inl

/-- For every page, the runner's dictionary of forms holds under an id exactly the last form of the page with this id,
with its action and its fields. -/
theorem parse_forms_iff (page : List Tag) (id : String) (form : Form) :
    (parseForms page).lookup id = some form ↔ Last page id form := by
  rw [parseForms]
  exact lookup_handled_init page id form

end Oidc4acLab.Runner
