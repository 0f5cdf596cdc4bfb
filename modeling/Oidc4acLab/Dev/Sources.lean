import Oidc4acLab.Dev.Invariants

/-! # What is built

The script changes only the checkout that it manages, and Maven gets this one only with the
files of its HEAD and no others, unless a command is still at work in it that the shell of an
earlier call has left behind. A checkout of the user is left to Maven as it is.
-/
namespace Oidc4acLab.Checkout
open Shell
variable {Commit : Type}

def World.Guarded (r : World Commit) : Prop := r.managed = true → r.keycloakRepo ≠ some .configured

variable {errexit : Bool}

variable [DecidableEq Commit]

end Oidc4acLab.Checkout

namespace Oidc4acLab.Dev
open Shell Checkout
variable {Commit : Type}

/-- Maven may be given the user's checkout, or the files of a commit, or files that something else is at work on. -/
def Source.Good (s : Source Commit) : Prop :=
  s.repo = .configured ∨ s.beside = some .runtime ∨ s.files.clean = true

/-- What holds of the checkouts and of what was done with them; `f` is how the user's files were. -/
structure Sources (f : Files) (w : Host Commit) : Prop where
  guarded : w.repo.Guarded
  git : ∀ directory c, Call.git directory c ∈ w.calls →
    directory = .checkout .runtime ∨ directory = .submodule ∧ c = .revParseSource
  maven : ∀ s, Call.maven s ∈ w.calls → s.Good
  built : ∀ s ∈ w.built, s.Good
  archive : ∀ s ∈ w.archive, s.Good
  user : w.userFiles = f ∨ ∃ s, Call.maven s ∈ w.calls ∧ s.repo = .configured
  beside : w.orphan = some .runtime → w.beside = some .runtime
  left : w.left = some .configured ∨ w.orphan = some .configured → ∃ s, Call.maven s ∈ w.calls ∧ s.repo = .configured

section Sources
variable {f : Files} {w : Host Commit}

theorem Sources.called (h : Sources f w) {c : Call Commit} (hgit : ∀ directory d, c = .git directory d →
      directory = .checkout .runtime ∨ directory = .submodule ∧ d = .revParseSource)
    (hmaven : ∀ s, c = .maven s → s.Good) : Sources f (w.called c) := by
  have hmem : ∀ d : Call Commit, d ∈ (w.called c).calls → d ∈ w.calls ∨ c = d := fun d hd =>
    (List.mem_append.mp hd).imp id fun h => (List.mem_singleton.mp h).symm
  have hkept : (∃ s, Call.maven s ∈ w.calls ∧ s.repo = .configured) →
      ∃ s, Call.maven s ∈ (w.called c).calls ∧ s.repo = .configured :=
    fun ⟨s,hs,hr⟩ => ⟨s,List.mem_append_left _ hs,hr⟩
  exact {
    guarded := h.guarded
    git := fun directory d hd => (hmem _ hd).elim (h.git directory d) (hgit directory d)
    maven := fun s hs => (hmem _ hs).elim (h.maven s) (hmaven s)
    built := h.built
    archive := h.archive
    user := h.user.imp id hkept
    beside := h.beside
    left := fun hl => hkept (h.left hl) }

theorem Sources.advance (h : Sources f w) : Sources f w.advance where
  guarded := h.guarded
  git := h.git
  maven := h.maven
  built := h.built
  archive := h.archive
  user := by
    show (if _ then _ else _) = f ∨ _
    split
    next ho => exact Or.inr (h.left (Or.inr ho))
    next => exact h.user
  beside := by
    show (if _ then none else _) = _ → _
    split
    · exact nofun
    · exact h.beside
  left := by
    show _ ∨ (if _ then none else _) = _ → _
    split
    · exact fun hl => h.left (Or.inl (hl.resolve_right nofun))
    · exact h.left

theorem Sources.setFiles (h : Sources f w) (g : Files) : Sources f (w.setFiles g .runtime) :=
  ⟨h.guarded,h.git,h.maven,h.built,h.archive,h.user,h.beside,h.left⟩

/-- A command may be left behind in the managed checkout, and Maven in that of the user. -/
theorem Sources.leave (h : Sources f w) {l : Option Location}
    (hl : l = some .configured → ∃ s, Call.maven s ∈ w.calls ∧ s.repo = .configured) :
    Sources f { w with left := l } :=
  ⟨h.guarded,h.git,h.maven,h.built,h.archive,h.user,h.beside,fun h' => h'.elim hl fun ho => h.left (Or.inr ho)⟩

/-- The Git commands of `keycloak-repo.sh`. -/
theorem Sources.resolved (h : Sources f w) (lab : Lab Commit) {r : World Commit} (hr : r.Guarded) (files : Files) :
    Sources f (w.resolved lab r files) where
  guarded := hr
  git := by
    intro directory c hc
    rcases List.mem_append.mp hc with hc | hc
    · exact h.git directory c hc
    · obtain ⟨d,-,hd⟩ := List.mem_map.mp hc
      obtain ⟨rfl,rfl⟩ := Call.git.inj hd
      cases d with
      | revParseSource => exact Or.inr ⟨rfl,rfl⟩
      | _ => exact Or.inl rfl
  maven := by
    intro s hs
    rcases List.mem_append.mp hs with hs | hs
    · exact h.maven s hs
    · obtain ⟨d,-,hd⟩ := List.mem_map.mp hs
      cases hd
  built := h.built
  archive := h.archive
  user := h.user.imp id fun ⟨s,hs,hr⟩ => ⟨s,List.mem_append_left _ hs,hr⟩
  beside := h.beside
  left := fun hl => (h.left hl).imp fun s hs => ⟨List.mem_append_left _ hs.1,hs.2⟩

theorem Sources.interrupted (h : Sources f w) (lab : Lab Commit) (gits : List GitCommand) :
    Sources f (w.interrupted lab gits) := by
  refine Sources.leave (h.advance.resolved lab ?_ w.turn.files) ?_
  · exact h.guarded
  · split
    · exact nofun
    · exact nofun

/-- Unless something else is at work on them, the files of the managed checkout are so. -/
def Tidy (P : Files → Prop) (w : Host Commit) : Prop := w.beside = some .runtime ∨ P w.runtimeFiles

theorem Tidy.advance {P : Files → Prop} (h : Tidy P w) (hs : Sources f w) : Tidy P w.advance := by
  by_cases ho : w.orphan = some .runtime
  · exact Or.inl (hs.beside ho)
  · refine h.imp id fun hp => ?_
    show P (if _ then _ else _)
    rwa [if_neg ho]

def Fresh (f : Files) (w : Host Commit) : Prop :=
  Sources f w ∧ ∀ repo, w.repo.keycloakRepo = some repo → (w.source repo).Good

theorem Fresh.advance (h : Fresh f w) : Fresh f w.advance := by
  refine ⟨h.1.advance,fun repo hr => ?_⟩
  cases repo with
  | configured => exact Or.inl rfl
  | runtime =>
    have htidy : Tidy (fun g => g.clean = true) w := (h.2 .runtime hr).resolve_left nofun
    exact Or.inr (htidy.advance h.1)

variable [DecidableEq Commit] (setup : Setup Commit)

/-- What holds between two calls, when it does not matter what was at work before. -/
def Between (f : Files) (w : Host Commit) : Prop := Sources f { w with beside := w.orphan }

omit [DecidableEq Commit] in
theorem Between.start (h : Between f w) (a : Arguments) : Sources f (start a w) :=
  ⟨nofun,h.git,h.maven,h.built,h.archive,h.user,h.beside,h.left⟩

omit [DecidableEq Commit] in
theorem Sources.between (h : Sources f w) : Between f w :=
  ⟨h.guarded,h.git,h.maven,h.built,h.archive,h.user,id,h.left⟩

end Sources

end Oidc4acLab.Dev
