import Mathlib.Logic.Function.Basic
import Mathlib.Logic.Relation
import ShieldStore.Lib.Run

/-!
# Critical sections

Threads share a state of which every lock protects a part.  A thread takes one lock at
a time; while it has it, its steps touch the part of that lock only, and the other
threads may move between any two of them.  What no lock protects is touched by steps
outside of the critical sections, and by the step that leaves one.

Such a program may be thought of as if every critical section were one step: whatever
the threads do, they could have done it with their sections one after the other.  A
section counts as done when it is left.

## Main definitions

* `Prog` — a program, by the points its threads are at.
* `Prog.step` — one step of one thread.
* `Prog.AtomicStep` — a step outside of the sections, or a whole section.
* `Reduces` — a state, and the state in which the sections that are under way have not
  begun.

## Main results

* `Prog.exists_reaches` — every run is a run of whole sections.
* `Prog.exists_run_of_safe` — if nothing can go wrong with whole sections, every run is
  defined.
* `Prog.exists_run_calm` — the sections under way can be brought to their end.
* `Prog.exists_run_of_reaches` — every run of whole sections is a run.
-/

namespace Sections

open Run Function

/-! ### Programs -/

/-- What a thread does next. -/
inductive Mode (κ : Type)
  /-- A step outside of the critical sections. -/
  | outside
  /-- It takes a lock. -/
  | enter (k : κ)
  /-- A step in the critical section of a lock. -/
  | inside (k : κ)
  /-- It lets go of the lock. -/
  | leave (k : κ)
  deriving DecidableEq

/-- The thread has the lock. -/
def Mode.Within {κ : Type} (k : κ) : Mode κ → Prop
  | .inside k' | .leave k' => k' = k
  | _ => False

/-- The thread has no lock. -/
def Mode.Out {κ : Type} : Mode κ → Prop
  | .outside | .enter _ => True
  | _ => False

theorem Mode.Within.not_out {κ : Type} {k : κ} {m : Mode κ} (h : m.Within k) : ¬ m.Out := by
  cases m <;> simp_all [Mode.Within, Mode.Out]

/-- A program.  The points of the threads hold their local variables. -/
structure Prog (κ τ ι ο ε π : Type) (σ : κ → Type) where
  mode : π → Mode κ
  /-- A free lock can be taken, as far as what it protects is concerned. -/
  admits : (k : κ) → π → σ k → ι → Bool
  entered : π → π
  inner : (k : κ) → π → σ k → Option (π × σ k)
  left : τ → π → ε → Option (π × ε × List ο)
  outer : τ → π → ε → ι → Option (π × ε × List ο)
  within_entered : ∀ {k p}, mode p = .enter k → (mode (entered p)).Within k
  within_inner : ∀ {k p x r}, mode p = .inside k → inner k p x = some r → (mode r.1).Within k
  out_left : ∀ {t p e r k}, mode p = .leave k → left t p e = some r → (mode r.1).Out
  out_outer : ∀ {t p e i r}, mode p = .outside → outer t p e i = some r → (mode r.1).Out

/-- What the threads share, and where they are. -/
structure Conf (κ τ ε π : Type) (σ : κ → Type) where
  shared : ∀ k, σ k
  env : ε
  loc : τ → π

/-- The locks as well. -/
structure State (κ τ ε π : Type) (σ : κ → Type) extends Conf κ τ ε π σ where
  owner : κ → Option τ

variable {κ τ ι ο ε π : Type} {σ : κ → Type}

/-- All locks are free. -/
def Conf.calm (c : Conf κ τ ε π σ) : State κ τ ε π σ := { c with owner := fun _ => none }

variable [DecidableEq κ] [DecidableEq τ] (P : Prog κ τ ι ο ε π σ)

/-- One step of a thread.  A thread that cannot take its lock stays where it is. -/
def Prog.step (s : State κ τ ε π σ) (m : τ × ι) : Option (State κ τ ε π σ × List ο) :=
  match P.mode (s.loc m.1) with
  | .outside => (P.outer m.1 (s.loc m.1) s.env m.2).map fun r =>
      ({ s with env := r.2.1, loc := update s.loc m.1 r.1 }, r.2.2)
  | .enter k =>
      if s.owner k = none ∧ P.admits k (s.loc m.1) (s.shared k) m.2 = true then
        some ({ s with
          loc := update s.loc m.1 (P.entered (s.loc m.1))
          owner := update s.owner k (some m.1) }, [])
      else some (s, [])
  | .inside k => (P.inner k (s.loc m.1) (s.shared k)).map fun r =>
      ({ s with shared := update s.shared k r.2, loc := update s.loc m.1 r.1 }, [])
  | .leave k => (P.left m.1 (s.loc m.1) s.env).map fun r =>
      ({ s with env := r.2.1, loc := update s.loc m.1 r.1, owner := update s.owner k none }, r.2.2)

/-! ### Whole sections -/

/-- One step in the critical section of `k`. -/
def Prog.Inner (k : κ) (a b : π × σ k) : Prop :=
  P.mode a.1 = .inside k ∧ P.inner k a.1 a.2 = some b

/-- The critical section of `k`, from `a` to where it is left. -/
def Prog.Section (k : κ) (a b : π × σ k) : Prop :=
  Relation.ReflTransGen (P.Inner k) a b ∧ P.mode b.1 = .leave k

/-- A step outside of the critical sections, or a whole section. -/
inductive Prog.AtomicStep (c : Conf κ τ ε π σ) (m : τ × ι) : Conf κ τ ε π σ → List ο → Prop
  | outer {r : π × ε × List ο} (hmode : P.mode (c.loc m.1) = .outside)
      (houter : P.outer m.1 (c.loc m.1) c.env m.2 = some r) :
      Prog.AtomicStep c m { c with env := r.2.1, loc := update c.loc m.1 r.1 } r.2.2
  | whole {k : κ} {b : π × σ k} {r : π × ε × List ο} (hmode : P.mode (c.loc m.1) = .enter k)
      (hadmits : P.admits k (c.loc m.1) (c.shared k) m.2 = true)
      (hsection : P.Section k (P.entered (c.loc m.1), c.shared k) b)
      (hleft : P.left m.1 b.1 c.env = some r) :
      Prog.AtomicStep c m ⟨update c.shared k b.2, r.2.1, update c.loc m.1 r.1⟩ r.2.2

/-- Runs of such steps. -/
inductive Prog.Reaches (c : Conf κ τ ε π σ) : List (τ × ι) → Conf κ τ ε π σ → List ο → Prop
  | refl : Prog.Reaches c [] c []
  | step {ms : List (τ × ι)} {c₁ c₂ : Conf κ τ ε π σ} {os os' : List ο} {m : τ × ι} :
      Prog.Reaches c ms c₁ os → P.AtomicStep c₁ m c₂ os' → Prog.Reaches c (ms ++ [m]) c₂ (os ++ os')

variable {P}

omit [DecidableEq κ] [DecidableEq τ] in
theorem Prog.Section.leave {k : κ} {a : π × σ k} (h : P.mode a.1 = .leave k) : P.Section k a a :=
  ⟨.refl, h⟩

omit [DecidableEq κ] [DecidableEq τ] in
theorem Prog.Section.inside {k : κ} {a b c : π × σ k} (hmode : P.mode a.1 = .inside k)
    (hinner : P.inner k a.1 a.2 = some b) (h : P.Section k b c) : P.Section k a c :=
  ⟨.head ⟨hmode, hinner⟩ h.1, h.2⟩

omit [DecidableEq κ] [DecidableEq τ] in
/-- A section that is at its end. -/
theorem Prog.section_leave_iff {k : κ} {a b : π × σ k} (h : P.mode a.1 = .leave k) :
    P.Section k a b ↔ b = a := by
  constructor
  · rintro ⟨hsteps, -⟩
    rcases hsteps.cases_head with heq | ⟨c, hinner, -⟩
    · exact heq.symm
    · rw [hinner.1] at h
      cases h
  · rintro rfl
    exact .leave h

omit [DecidableEq κ] [DecidableEq τ] in
/-- A section that goes on. -/
theorem Prog.section_inside_iff {k : κ} {a b : π × σ k} (h : P.mode a.1 = .inside k) :
    P.Section k a b ↔ ∃ c, P.inner k a.1 a.2 = some c ∧ P.Section k c b := by
  constructor
  · rintro ⟨hsteps, hend⟩
    rcases hsteps.cases_head with rfl | ⟨c, hinner, hsteps⟩
    · rw [h] at hend
      cases hend
    · exact ⟨c, hinner.2, hsteps, hend⟩
  · rintro ⟨c, hinner, hsection⟩
    exact .inside h hinner hsection

omit [DecidableEq κ] [DecidableEq τ] in
/-- A section goes one way only. -/
theorem Prog.Section.of_reach {k : κ} {a b c : π × σ k} (h : P.Section k a c)
    (hsteps : Relation.ReflTransGen (P.Inner k) a b) : P.Section k b c := by
  induction hsteps with
  | refl => exact h
  | tail _ hinner ih =>
    obtain ⟨d, hd, hsection⟩ := (section_inside_iff hinner.1).mp ih
    obtain rfl := Option.some.inj (hd.symm.trans hinner.2)
    exact hsection

omit [DecidableEq κ] [DecidableEq τ] in
/-- A section ends in one way only. -/
theorem Prog.Section.unique {k : κ} {a b c : π × σ k} (hb : P.Section k a b) (hc : P.Section k a c) :
    b = c :=
  (section_leave_iff hc.2).mp (hb.of_reach hc.1)

theorem Prog.Reaches.trans {c c₁ c₂ : Conf κ τ ε π σ} {ms ms' : List (τ × ι)} {os os' : List ο}
    (h : P.Reaches c ms c₁ os) (h' : P.Reaches c₁ ms' c₂ os') :
    P.Reaches c (ms ++ ms') c₂ (os ++ os') := by
  induction h' with
  | refl => simpa using h
  | step _ hstep ih =>
    rw [← List.append_assoc, ← List.append_assoc]
    exact .step ih hstep

theorem Prog.AtomicStep.reaches {c c' : Conf κ τ ε π σ} {m : τ × ι} {os : List ο}
    (h : P.AtomicStep c m c' os) : P.Reaches c [m] c' os := by
  simpa using Prog.Reaches.step .refl h

/-- The other threads stay where they are. -/
theorem Prog.AtomicStep.loc_of_ne {c c' : Conf κ τ ε π σ} {m : τ × ι} {os : List ο}
    (h : P.AtomicStep c m c' os) {t : τ} (hne : t ≠ m.1) : c'.loc t = c.loc t := by
  cases h with
  | outer => exact update_of_ne hne _ _
  | whole => exact update_of_ne hne _ _

theorem Prog.AtomicStep.of_outer {c c' : Conf κ τ ε π σ} {t : τ} {i : ι} {p : π} {e : ε} {os : List ο}
    (hmode : P.mode (c.loc t) = .outside) (houter : P.outer t (c.loc t) c.env i = some (p, e, os))
    (hshared : c'.shared = c.shared) (henv : c'.env = e) (hloc : c'.loc = update c.loc t p) :
    P.AtomicStep c (t, i) c' os := by
  obtain ⟨shared, env, loc⟩ := c'
  simp only at hshared henv hloc
  subst hshared henv hloc
  exact .outer (m := (t, i)) hmode houter

theorem Prog.AtomicStep.of_section {c c' : Conf κ τ ε π σ} {t : τ} {i : ι} {k : κ} {p p' : π} {x : σ k}
    {e : ε} {os : List ο} (hmode : P.mode (c.loc t) = .enter k)
    (hadmits : P.admits k (c.loc t) (c.shared k) i = true)
    (hsection : P.Section k (P.entered (c.loc t), c.shared k) (p, x))
    (hleft : P.left t p c.env = some (p', e, os)) (hshared : c'.shared = update c.shared k x)
    (henv : c'.env = e) (hloc : c'.loc = update c.loc t p') : P.AtomicStep c (t, i) c' os := by
  obtain ⟨shared, env, loc⟩ := c'
  simp only at hshared henv hloc
  subst hshared henv hloc
  exact .whole (m := (t, i)) hmode hadmits hsection hleft

/-- A step goes one way only. -/
theorem Prog.AtomicStep.unique {c c₁ c₂ : Conf κ τ ε π σ} {m : τ × ι} {os₁ os₂ : List ο}
    (h₁ : P.AtomicStep c m c₁ os₁) (h₂ : P.AtomicStep c m c₂ os₂) : c₁ = c₂ ∧ os₁ = os₂ := by
  cases h₁ with
  | outer hmode₁ houter₁ =>
    cases h₂ with
    | outer hmode₂ houter₂ =>
      obtain rfl := Option.some.inj (houter₁.symm.trans houter₂)
      exact ⟨rfl, rfl⟩
    | whole hmode₂ => cases hmode₁.symm.trans hmode₂
  | whole hmode₁ _ hsection₁ hleft₁ =>
    cases h₂ with
    | outer hmode₂ => cases hmode₁.symm.trans hmode₂
    | whole hmode₂ _ hsection₂ hleft₂ =>
      cases hmode₁.symm.trans hmode₂
      obtain rfl := hsection₁.unique hsection₂
      obtain rfl := Option.some.inj (hleft₁.symm.trans hleft₂)
      exact ⟨rfl, rfl⟩

/-- **Invariants of runs of whole sections.**  `ok` is what is known of the moves; what is
kept may depend on what was put out so far. -/
theorem Prog.Reaches.induct {c : Conf κ τ ε π σ} (ok : τ × ι → Prop)
    {motive : Conf κ τ ε π σ → List ο → Prop} (hinit : motive c [])
    (hstep : ∀ {c₁ c₂ m os os'}, motive c₁ os → ok m → P.AtomicStep c₁ m c₂ os' →
      motive c₂ (os ++ os')) {ms : List (τ × ι)} {c' : Conf κ τ ε π σ} {os : List ο}
    (h : P.Reaches c ms c' os) (hok : ∀ m ∈ ms, ok m) : motive c' os := by
  induction h with
  | refl => exact hinit
  | step _ hatomic ih =>
    exact hstep (ih fun m hm => hok m (List.mem_append_left _ hm))
      (hok _ (List.mem_append_right _ (List.mem_singleton_self _))) hatomic

/-! ### From steps to sections -/

variable (P) in
/-- In `c`, the sections that are under way in `s` have not begun.  They were entered by
moves that are `ok`. -/
structure Reduces (ok : τ × ι → Prop) (s : State κ τ ε π σ) (c : Conf κ τ ε π σ) : Prop where
  env : s.env = c.env
  out : ∀ t, (∀ k, s.owner k ≠ some t) → s.loc t = c.loc t ∧ (P.mode (s.loc t)).Out
  free : ∀ k, s.owner k = none → s.shared k = c.shared k
  held : ∀ k t, s.owner k = some t → P.mode (c.loc t) = .enter k ∧
    (∃ i, ok (t, i) ∧ P.admits k (c.loc t) (c.shared k) i = true) ∧
    Relation.ReflTransGen (P.Inner k) (P.entered (c.loc t), c.shared k) (s.loc t, s.shared k) ∧
    (P.mode (s.loc t)).Within k

variable {ok : τ × ι → Prop}

namespace Reduces

variable {s : State κ τ ε π σ} {c : Conf κ τ ε π σ} (h : Reduces P ok s c)

omit [DecidableEq κ] [DecidableEq τ]

theorem calm {c : Conf κ τ ε π σ} (h : ∀ t, (P.mode (c.loc t)).Out) : Reduces P ok c.calm c where
  env := rfl
  out := fun t _ => ⟨rfl, h t⟩
  free := fun _ _ => rfl
  held := by
    intro k t hown
    cases hown

include h

/-- A thread has one lock at most. -/
theorem owner_inj {k k' : κ} {t : τ} (hk : s.owner k = some t) (hk' : s.owner k' = some t) :
    k = k' := by
  have heq := (h.held k t hk).1.symm.trans (h.held k' t hk').1
  cases heq
  rfl

/-- A thread that is in a section has its lock. -/
theorem owner_of_within {k : κ} {t : τ} (hmode : (P.mode (s.loc t)).Within k) :
    s.owner k = some t := by
  by_cases hout : ∀ k', s.owner k' ≠ some t
  · exact absurd (h.out t hout).2 hmode.not_out
  · obtain ⟨k', hk'⟩ := not_forall_not.mp hout
    have hwithin := (h.held k' t hk').2.2.2
    revert hmode hwithin
    cases P.mode (s.loc t) <;> simp only [Mode.Within, false_implies]
    all_goals
      rintro rfl rfl
      exact hk'

/-- A thread that is in no section has no lock. -/
theorem owner_ne_of_out {t : τ} (hmode : (P.mode (s.loc t)).Out) (k : κ) : s.owner k ≠ some t :=
  fun hk => (h.held k t hk).2.2.2.not_out hmode

/-- A thread whose next step is outside of the sections has no lock. -/
theorem loc_of_outside {t : τ} (hmode : P.mode (c.loc t) = .outside) :
    s.loc t = c.loc t ∧ ∀ k, s.owner k ≠ some t := by
  have hfree : ∀ k, s.owner k ≠ some t := by
    intro k hk
    have henter := (h.held k t hk).1
    rw [hmode] at henter
    cases henter
  exact ⟨(h.out t hfree).1, hfree⟩

/-- If all locks are free, no section is under way. -/
theorem eq_of_free (hfree : ∀ k, s.owner k = none) : s = c.calm := by
  have hshared : s.shared = c.shared := funext fun k => h.free k (hfree k)
  have hloc : s.loc = c.loc := funext fun t => (h.out t fun k => by simp [hfree k]).1
  have hown : s.owner = fun _ => none := funext hfree
  have henv := h.env
  obtain ⟨⟨shared, env, loc⟩, owner⟩ := s
  obtain ⟨shared', env', loc'⟩ := c
  simp only at hshared hloc hown henv
  subst hshared hloc hown henv
  rfl

end Reduces

section Steps

variable {s s' : State κ τ ε π σ} {c : Conf κ τ ε π σ} {m : τ × ι} {os : List ο}
  (h : Reduces P ok s c)

include h

/-- A step outside of the sections. -/
theorem Reduces.outer {r : π × ε × List ο} (hmode : P.mode (s.loc m.1) = .outside)
    (houter : P.outer m.1 (s.loc m.1) s.env m.2 = some r) :
    P.AtomicStep c m { c with env := r.2.1, loc := update c.loc m.1 r.1 } r.2.2 ∧
      Reduces P ok { s with env := r.2.1, loc := update s.loc m.1 r.1 }
        { c with env := r.2.1, loc := update c.loc m.1 r.1 } := by
  -- a thread that moves outside has no lock, and stands where it stands among whole sections
  have hfree := h.owner_ne_of_out (t := m.1) (by rw [hmode]; trivial)
  obtain ⟨hloc, -⟩ := h.out m.1 hfree
  constructor
  · exact .outer (hloc ▸ hmode) (by rw [← hloc, ← h.env]; exact houter)
  constructor
  · rfl
  · intro t ht
    rcases eq_or_ne t m.1 with rfl | hne
    · simpa using P.out_outer hmode houter
    · simpa [hne] using h.out t ht
  · exact h.free
  · intro k t hk
    have hne : t ≠ m.1 := fun heq => hfree k (heq ▸ hk)
    simpa [hne] using h.held k t hk

/-- A thread takes a lock. -/
theorem Reduces.enter {k : κ} (hm : ok m) (hmode : P.mode (s.loc m.1) = .enter k)
    (hfree : s.owner k = none) (hadmits : P.admits k (s.loc m.1) (s.shared k) m.2 = true) :
    Reduces P ok { s with
      loc := update s.loc m.1 (P.entered (s.loc m.1))
      owner := update s.owner k (some m.1) } c := by
  have hnone := h.owner_ne_of_out (t := m.1) (by rw [hmode]; trivial)
  obtain ⟨hloc, -⟩ := h.out m.1 hnone
  constructor
  · exact h.env
  · intro t ht
    have hne : t ≠ m.1 := by
      rintro rfl
      exact ht k (by simp)
    have hout := h.out t fun k' hk' => by
      rcases eq_or_ne k' k with rfl | hkk
      · rw [hfree] at hk'
        cases hk'
      · exact ht k' (by simpa [hkk] using hk')
    simpa [hne] using hout
  · intro k' hk'
    rcases eq_or_ne k' k with rfl | hkk
    · simp at hk'
    · exact h.free k' (by simpa [hkk] using hk')
  · intro k' t hk'
    rcases eq_or_ne k' k with rfl | hkk
    · obtain rfl : m.1 = t := by simpa using hk'
      -- the section starts from what the lock protected when it was free
      have hshared := h.free k' hfree
      refine ⟨hloc ▸ hmode, ⟨m.2, hm, by rw [← hloc, ← hshared]; exact hadmits⟩, ?_, ?_⟩
      · simp only [update_self]
        rw [← hloc, ← hshared]
      · simpa using P.within_entered hmode
    · have hk : s.owner k' = some t := by simpa [hkk] using hk'
      have hne : t ≠ m.1 := fun heq => hnone k' (heq ▸ hk)
      simpa [hne] using h.held k' t hk

/-- A step in a section. -/
theorem Reduces.inner {k : κ} {r : π × σ k} (hmode : P.mode (s.loc m.1) = .inside k)
    (hinner : P.inner k (s.loc m.1) (s.shared k) = some r) :
    Reduces P ok { s with shared := update s.shared k r.2, loc := update s.loc m.1 r.1 } c := by
  have hown := h.owner_of_within (k := k) (t := m.1) (by rw [hmode]; rfl)
  constructor
  · exact h.env
  · intro t ht
    have hne : t ≠ m.1 := fun heq => ht k (heq ▸ hown)
    simpa [hne] using h.out t ht
  · intro k' hk'
    have hne : k' ≠ k := by
      rintro rfl
      rw [hown] at hk'
      cases hk'
    simpa [hne] using h.free k' hk'
  · intro k' t hk'
    rcases eq_or_ne k' k with rfl | hne
    -- this section is one step longer, and nobody else has the lock
    · obtain rfl : m.1 = t := Option.some.inj (hown.symm.trans hk')
      obtain ⟨hcmode, hadmits, hsteps, -⟩ := h.held k' m.1 hown
      refine ⟨hcmode, hadmits, ?_, ?_⟩
      · simpa using hsteps.tail ⟨hmode, hinner⟩
      · simpa using P.within_inner hmode hinner
    · have hnet : t ≠ m.1 := by
        rintro rfl
        exact hne (h.owner_inj hk' hown)
      simpa [hne, hnet] using h.held k' t hk'

/-- A section is left, and counts as done. -/
theorem Reduces.leave {k : κ} {r : π × ε × List ο} (hmode : P.mode (s.loc m.1) = .leave k)
    (hleft : P.left m.1 (s.loc m.1) s.env = some r) :
    (∃ i, ok (m.1, i) ∧ P.AtomicStep c (m.1, i)
      ⟨update c.shared k (s.shared k), r.2.1, update c.loc m.1 r.1⟩ r.2.2) ∧
      Reduces P ok
        { s with env := r.2.1, loc := update s.loc m.1 r.1, owner := update s.owner k none }
        ⟨update c.shared k (s.shared k), r.2.1, update c.loc m.1 r.1⟩ := by
  have hown := h.owner_of_within (k := k) (t := m.1) (by rw [hmode]; rfl)
  obtain ⟨hcmode, ⟨i, hi, hadmits⟩, hsteps, -⟩ := h.held k m.1 hown
  constructor
  -- all that was done under the lock happens here, in one step
  · exact ⟨i, hi, .whole (m := (m.1, i)) (b := (s.loc m.1, s.shared k)) hcmode hadmits
      ⟨hsteps, hmode⟩ (h.env ▸ hleft)⟩
  constructor
  · rfl
  · intro t ht
    rcases eq_or_ne t m.1 with rfl | hne
    · simpa using P.out_left hmode hleft
    · have hout := h.out t fun k' hk' => by
        rcases eq_or_ne k' k with rfl | hkk
        · exact hne (Option.some.inj (hk'.symm.trans hown))
        · exact ht k' (by simpa [hkk] using hk')
      simpa [hne] using hout
  · intro k' hk'
    rcases eq_or_ne k' k with rfl | hkk
    · simp
    · simpa [hkk] using h.free k' (by simpa [hkk] using hk')
  · intro k' t hk'
    rcases eq_or_ne k' k with rfl | hkk
    · simp at hk'
    · have hk : s.owner k' = some t := by simpa [hkk] using hk'
      have hne : t ≠ m.1 := by
        rintro rfl
        exact hkk (h.owner_inj hk hown)
      simpa [hkk, hne] using h.held k' t hk

/-- **One step**: nothing is done yet, or it is a step outside of the sections, or the
end of one. -/
theorem Reduces.step (hm : ok m) (hstep : P.step s m = some (s', os)) :
    (os = [] ∧ Reduces P ok s' c) ∨
      ∃ m' c', ok m' ∧ P.AtomicStep c m' c' os ∧ Reduces P ok s' c' := by
  unfold Prog.step at hstep
  cases hmode : P.mode (s.loc m.1) with
  | outside =>
    rw [hmode] at hstep
    obtain ⟨r, houter, heq⟩ := Option.map_eq_some_iff.mp hstep
    cases heq
    obtain ⟨hatomic, hred⟩ := h.outer hmode houter
    exact .inr ⟨m, _, hm, hatomic, hred⟩
  | enter k =>
    simp only [hmode] at hstep
    split at hstep
    · next hfree =>
      cases hstep
      exact .inl ⟨rfl, h.enter hm hmode hfree.1 hfree.2⟩
    · cases hstep
      exact .inl ⟨rfl, h⟩
  | inside k =>
    rw [hmode] at hstep
    obtain ⟨r, hinner, heq⟩ := Option.map_eq_some_iff.mp hstep
    cases heq
    exact .inl ⟨rfl, h.inner hmode hinner⟩
  | leave k =>
    rw [hmode] at hstep
    obtain ⟨r, hleft, heq⟩ := Option.map_eq_some_iff.mp hstep
    cases heq
    obtain ⟨⟨i, hi, hatomic⟩, hred⟩ := h.leave hmode hleft
    exact .inr ⟨(m.1, i), _, hi, hatomic, hred⟩

/-- **Every run is a run of whole sections.** -/
theorem Reduces.run {ms : List (τ × ι)} {oss : List (List ο)} (hok : ∀ m ∈ ms, ok m)
    (hrun : Run.run P.step s ms = some (s', oss)) :
    ∃ ms' c', (∀ m ∈ ms', ok m) ∧ P.Reaches c ms' c' oss.flatten ∧ Reduces P ok s' c' := by
  induction ms using List.reverseRecOn generalizing s' oss with
  | nil =>
    cases hrun
    exact ⟨[], c, by simp, .refl, h⟩
  | append_singleton ms m ih =>
    obtain ⟨s₁, oss₁, os, hrun₁, hstep, rfl⟩ := run_concat_eq_some_iff.mp hrun
    obtain ⟨ms', c₁, hok₁, hreaches, h₁⟩ := ih (fun m hm => hok m (List.mem_append_left _ hm)) hrun₁
    rw [List.flatten_append, List.flatten_singleton]
    rcases h₁.step (hok m (List.mem_append_right _ (List.mem_singleton_self m))) hstep with
      ⟨rfl, h₂⟩ | ⟨m', c₂, hm', hatomic, h₂⟩
    -- the step is inside of a section, or takes a lock: no whole section is done yet
    · exact ⟨ms', c₁, hok₁, by simpa using hreaches, h₂⟩
    · refine ⟨ms' ++ [m'], c₂, ?_, .step hreaches hatomic, h₂⟩
      intro m₁ hm₁
      rcases List.mem_append.mp hm₁ with hm₁ | hm₁
      · exact hok₁ m₁ hm₁
      · rw [List.mem_singleton.mp hm₁]
        exact hm'

end Steps

/-- **Every run is a run of whole sections**, from a state in which no section is under
way. -/
theorem Prog.exists_reaches (ok : τ × ι → Prop) {c : Conf κ τ ε π σ}
    (hout : ∀ t, (P.mode (c.loc t)).Out) {ms : List (τ × ι)} (hok : ∀ m ∈ ms, ok m)
    {s : State κ τ ε π σ} {oss : List (List ο)} (hrun : run P.step c.calm ms = some (s, oss)) :
    ∃ ms' c', (∀ m ∈ ms', ok m) ∧ P.Reaches c ms' c' oss.flatten ∧ Reduces P ok s c' :=
  (Reduces.calm hout).run hok hrun

/-! ### From sections to steps -/

variable (P) in
/-- Every step of a thread is defined, and every section can be brought to its end. -/
structure Safe (ok : τ × ι → Prop) (c : Conf κ τ ε π σ) : Prop where
  outer : ∀ m, ok m → P.mode (c.loc m.1) = .outside →
    (P.outer m.1 (c.loc m.1) c.env m.2).isSome = true
  ends : ∀ t k i, ok (t, i) → P.mode (c.loc t) = .enter k →
    P.admits k (c.loc t) (c.shared k) i = true →
    ∃ b, P.Section k (P.entered (c.loc t), c.shared k) b ∧ (P.left t b.1 c.env).isSome = true

/-- Nothing goes wrong where every thread that can move has a step. -/
theorem Safe.of_exists {ok : τ × ι → Prop} {c : Conf κ τ ε π σ}
    (h : ∀ m, ok m → (P.mode (c.loc m.1) = .outside ∨ ∃ k, P.mode (c.loc m.1) = .enter k ∧
      P.admits k (c.loc m.1) (c.shared k) m.2 = true) → ∃ c' os, P.AtomicStep c m c' os) :
    Safe P ok c where
  outer := by
    intro m hm hmode
    obtain ⟨c', os, hstep⟩ := h m hm (.inl hmode)
    cases hstep with
    | outer _ houter => rw [houter]; rfl
    | whole hmode' => rw [hmode] at hmode'; cases hmode'
  ends := by
    intro t k i hm hmode hadmits
    obtain ⟨c', os, hstep⟩ := h (t, i) hm (.inr ⟨k, hmode, hadmits⟩)
    cases hstep with
    | outer hmode' => rw [hmode] at hmode'; cases hmode'
    | @whole k' b r hmode' _ hsection hleft =>
      rw [hmode] at hmode'
      cases hmode'
      exact ⟨b, hsection, by rw [hleft]; rfl⟩

omit [DecidableEq κ] [DecidableEq τ] in
/-- What is left of a section that is under way. -/
theorem Reduces.exists_section {s : State κ τ ε π σ} {c : Conf κ τ ε π σ} (h : Reduces P ok s c)
    (hsafe : Safe P ok c) {k : κ} {t : τ} (hown : s.owner k = some t) :
    ∃ b r, P.Section k (s.loc t, s.shared k) b ∧ P.left t b.1 s.env = some r := by
  obtain ⟨hmode, ⟨i, hi, hadmits⟩, hsteps, -⟩ := h.held k t hown
  obtain ⟨b, hsection, hleft⟩ := hsafe.ends t k i hi hmode hadmits
  obtain ⟨r, hr⟩ := Option.isSome_iff_exists.mp hleft
  exact ⟨b, r, hsection.of_reach hsteps, h.env ▸ hr⟩

/-- **Safety.**  If nothing can go wrong with whole sections, nothing goes wrong. -/
theorem Reduces.exists_step {s : State κ τ ε π σ} {c : Conf κ τ ε π σ} (h : Reduces P ok s c)
    (hsafe : Safe P ok c) {m : τ × ι} (hm : ok m) : ∃ s' os, P.step s m = some (s', os) := by
  unfold Prog.step
  cases hmode : P.mode (s.loc m.1) with
  | outside =>
    have hloc := (h.out m.1 (h.owner_ne_of_out (by rw [hmode]; trivial))).1
    have hsome := hsafe.outer m hm (hloc ▸ hmode)
    rw [← hloc, ← h.env] at hsome
    obtain ⟨r, hr⟩ := Option.isSome_iff_exists.mp hsome
    exact ⟨_, _, by simp only [hr, Option.map_some]; rfl⟩
  | enter k =>
    -- a thread that cannot have its lock stays where it is
    by_cases hfree : s.owner k = none ∧ P.admits k (s.loc m.1) (s.shared k) m.2 = true
    · exact ⟨_, _, if_pos hfree⟩
    · exact ⟨_, _, if_neg hfree⟩
  | inside k =>
    obtain ⟨b, r, hsection, -⟩ := h.exists_section hsafe (k := k) (t := m.1)
      (h.owner_of_within (by rw [hmode]; rfl))
    obtain ⟨a, ha, -⟩ := (Prog.section_inside_iff hmode).mp hsection
    exact ⟨_, _, by simp only [ha, Option.map_some]; rfl⟩
  | leave k =>
    obtain ⟨b, r, hsection, hleft⟩ := h.exists_section hsafe (k := k) (t := m.1)
      (h.owner_of_within (by rw [hmode]; rfl))
    obtain rfl := (Prog.section_leave_iff hmode).mp hsection
    exact ⟨_, _, by simp only [hleft, Option.map_some]; rfl⟩

/-- A thread brings its section to its end. -/
theorem Prog.exists_run_section {s : State κ τ ε π σ} {k : κ} {t : τ} (i : ι) {b : π × σ k}
    {r : π × ε × List ο} (hsection : P.Section k (s.loc t, s.shared k) b)
    (hleft : P.left t b.1 s.env = some r) :
    ∃ n oss, run P.step s (List.replicate n (t, i)) = some
        (⟨⟨update s.shared k b.2, r.2.1, update s.loc t r.1⟩, update s.owner k none⟩, oss) ∧
      oss.flatten = r.2.2 := by
  obtain ⟨hsteps, hend⟩ := hsection
  have hinner : ∃ n, run P.step s (List.replicate n (t, i)) = some
      ({ s with shared := update s.shared k b.2, loc := update s.loc t b.1 },
        List.replicate n []) := by
    -- by induction on the steps that are left
    clear hend hleft
    induction hsteps with
    | refl => exact ⟨0, by simp⟩
    | tail _ hstep ih =>
      obtain ⟨n, hrun⟩ := ih
      refine ⟨n + 1, ?_⟩
      rw [List.replicate_succ', List.replicate_succ']
      refine run_concat_eq_some_iff.mpr ⟨_, _, [], hrun, ?_, rfl⟩
      unfold Prog.step
      simp only [update_self, hstep.1, hstep.2, Option.map_some, update_idem]
  obtain ⟨n, hrun⟩ := hinner
  refine ⟨n + 1, List.replicate n [] ++ [r.2.2], ?_, by simp⟩
  rw [List.replicate_succ']
  refine run_concat_eq_some_iff.mpr ⟨_, _, r.2.2, hrun, ?_, rfl⟩
  unfold Prog.step
  simp only [update_self, hend, hleft, Option.map_some, update_idem]

section Runs

variable {I : Conf κ τ ε π σ → Prop} (hsafe : ∀ c, I c → Safe P ok c)
  (hI : ∀ {c m c' os}, I c → ok m → P.AtomicStep c m c' os → I c')

include hsafe hI

/-- **Safety of runs.** -/
theorem Prog.exists_run_of_safe {c : Conf κ τ ε π σ} (hc : I c) (hout : ∀ t, (P.mode (c.loc t)).Out)
    (ms : List (τ × ι)) (hok : ∀ m ∈ ms, ok m) :
    ∃ s oss, run P.step c.calm ms = some (s, oss) := by
  induction ms using List.reverseRecOn with
  | nil => exact ⟨_, _, rfl⟩
  | append_singleton ms m ih =>
    have hok' : ∀ m ∈ ms, ok m := fun m hm => hok m (List.mem_append_left _ hm)
    obtain ⟨s, oss, hrun⟩ := ih hok'
    obtain ⟨ms', c', hms', hreaches, hred⟩ := exists_reaches ok hout hok' hrun
    have hc' : I c' := hreaches.induct ok (motive := fun c _ => I c) hc
      (fun hc hm hstep => hI hc hm hstep) hms'
    obtain ⟨s', os, hstep⟩ := hred.exists_step (hsafe c' hc')
      (hok m (List.mem_append_right _ (List.mem_singleton_self m)))
    exact ⟨s', oss ++ [os], run_concat_eq_some_iff.mpr ⟨s, oss, os, hrun, hstep, rfl⟩⟩

/-- **The sections under way can be brought to their end**, if those of the threads `ts`
are all that are. -/
theorem Prog.exists_run_calm (i₀ : ι) (ts : List τ) :
    (∀ t ∈ ts, ok (t, i₀)) → ∀ {s : State κ τ ε π σ} {c : Conf κ τ ε π σ}, I c → Reduces P ok s c →
      (∀ k t, s.owner k = some t → t ∈ ts) →
      ∃ ns ms c' oss, run P.step s ns = some (c'.calm, oss) ∧ (∀ m ∈ ns, m.1 ∈ ts ∧ m.2 = i₀) ∧
        (∀ m ∈ ms, ok m) ∧ P.Reaches c ms c' oss.flatten ∧ I c' := by
  induction ts with
  | nil =>
    intro _ s c hc h hts
    have hfree : ∀ k, s.owner k = none := by
      intro k
      by_contra hne
      obtain ⟨t, ht⟩ := Option.ne_none_iff_exists'.mp hne
      exact absurd (hts k t ht) List.not_mem_nil
    refine ⟨[], [], c, [], ?_, by simp, by simp, .refl, hc⟩
    rw [run_nil, h.eq_of_free hfree]
  | cons t ts ih =>
    intro hi₀ s c hc h hts
    replace ih := @ih fun t ht => hi₀ t (List.mem_cons_of_mem _ ht)
    by_cases hnone : ∀ k, s.owner k ≠ some t
    · obtain ⟨ns, ms, c', oss, hrun, hns, hrest⟩ := ih hc h fun k t' ht' => by
        rcases List.mem_cons.mp (hts k t' ht') with rfl | hmem
        · exact absurd ht' (hnone k)
        · exact hmem
      exact ⟨ns, ms, c', oss, hrun, fun m hm => (hns m hm).imp_left (List.mem_cons_of_mem _), hrest⟩
    obtain ⟨k, hk⟩ := not_forall_not.mp hnone
    -- the thread ends its section, and lets go of its only lock
    obtain ⟨b, r, hsection, hleft⟩ := h.exists_section (hsafe c hc) hk
    obtain ⟨n, oss, hrun, -⟩ := exists_run_section i₀ hsection hleft
    have hok₁ : ∀ m ∈ List.replicate n (t, i₀), ok m := by
      intro m hm
      rw [List.eq_of_mem_replicate hm]
      exact hi₀ t List.mem_cons_self
    obtain ⟨ms₁, c₁, hms₁, hreaches₁, h₁⟩ := h.run hok₁ hrun
    have hc₁ : I c₁ := hreaches₁.induct ok (motive := fun c _ => I c) hc
      (fun hc hm hstep => hI hc hm hstep) hms₁
    obtain ⟨n₂, ms₂, c₂, oss₂, hrun₂, hn₂, hms₂, hreaches₂, hc₂⟩ := ih hc₁ h₁ fun k' t' ht' => by
      rcases eq_or_ne k' k with rfl | hkk
      · simp at ht'
      · have hown : s.owner k' = some t' := by simpa [hkk] using ht'
        rcases List.mem_cons.mp (hts k' t' hown) with rfl | hmem
        · exact absurd (h.owner_inj hown hk) hkk
        · exact hmem
    refine ⟨List.replicate n (t, i₀) ++ n₂, ms₁ ++ ms₂, c₂, oss ++ oss₂, ?_, ?_, ?_, ?_, hc₂⟩
    · exact run_trans hrun hrun₂
    · intro m hm
      rcases List.mem_append.mp hm with hm | hm
      · rw [List.eq_of_mem_replicate hm]
        exact ⟨List.mem_cons_self, rfl⟩
      · exact (hn₂ m hm).imp_left (List.mem_cons_of_mem _)
    · intro m hm
      rcases List.mem_append.mp hm with hm | hm
      · exact hms₁ m hm
      · exact hms₂ m hm
    · rw [List.flatten_append]
      exact hreaches₁.trans hreaches₂

end Runs

/-- A step of whole sections is a run, from a state in which all locks are free. -/
theorem Prog.AtomicStep.exists_run {c c' : Conf κ τ ε π σ} {m : τ × ι} {os : List ο}
    (h : P.AtomicStep c m c' os) :
    ∃ n oss, run P.step c.calm (List.replicate n m) = some (c'.calm, oss) ∧ oss.flatten = os := by
  cases h with
  | outer hmode houter =>
    refine ⟨1, [_], run_cons_eq_some_iff.mpr ⟨_, ?_, rfl⟩, List.flatten_singleton⟩
    unfold Prog.step Conf.calm
    simp only [hmode, houter, Option.map_some]
  | @whole k b r hmode hadmits hsection hleft =>
    obtain ⟨n, oss, hrun, hflat⟩ := exists_run_section (P := P)
      (s := ⟨{ c with loc := update c.loc m.1 (P.entered (c.loc m.1)) },
        update (fun _ => none) k (some m.1)⟩) (t := m.1) (r := r) m.2 (by simpa using hsection) hleft
    refine ⟨n + 1, [] :: oss, ?_, by simpa using hflat⟩
    rw [List.replicate_succ]
    refine run_cons_eq_some_iff.mpr ⟨_, ?_, hrun.trans ?_⟩
    · unfold Prog.step Conf.calm
      simp only [hmode, hadmits, and_self, if_true]
    · simp [Conf.calm]

/-- **Every run of whole sections is a run.** -/
theorem Prog.exists_run_of_reaches {c c' : Conf κ τ ε π σ} {ms : List (τ × ι)} {os : List ο}
    (h : P.Reaches c ms c' os) :
    ∃ ns oss, run P.step c.calm ns = some (c'.calm, oss) ∧ oss.flatten = os ∧ ns ⊆ ms := by
  induction h with
  | refl => exact ⟨[], [], rfl, rfl, List.Subset.refl _⟩
  | @step ms c₁ c₂ os os' m _ hatomic ih =>
    obtain ⟨ns, oss, hrun, hflat, hns⟩ := ih
    obtain ⟨n, oss', hrun', hflat'⟩ := hatomic.exists_run
    refine ⟨ns ++ List.replicate n m, oss ++ oss', ?_, by simp [hflat, hflat'], ?_⟩
    · exact run_trans hrun hrun'
    · intro m' hm'
      rcases List.mem_append.mp hm' with hm' | hm'
      · exact List.mem_append_left _ (hns hm')
      · rw [List.eq_of_mem_replicate hm']
        exact List.mem_append_right _ (List.mem_singleton_self m)

end Sections
