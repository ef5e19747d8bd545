import Mathlib.Data.List.Infix
import Mathlib.Logic.Relation

/-!
# Runs

A machine takes inputs one after the other; each step may fail, and a step that
succeeds gives the next state and an output.  A run that fails at one step has
failed.

The rule to reason with is simulation by a total machine: if every step from
related states succeeds, stays related and has the output the total machine
predicts, then so does every run.

## Main definitions

* `run` — the run of a machine that may fail.
* `runTotal` — the run of a machine that may not.

## Main results

* `run_append` — a run in two pieces.
* `run_guard_eq_some_iff` — the run of a machine that also checks something.
* `exists_run_of_sim` — simulation, step by step, gives simulation of runs.
* `rel_of_along` — an invariant of runs whose steps meet a condition.
* `exists_reflTransGen_of_lt` — a run to an end, by a measure of what is left to do.
-/

namespace Run

variable {σ ι ο α ω : Type*}

/-- The state after the inputs, and the outputs. -/
def run (step : σ → ι → Option (σ × ο)) : σ → List ι → Option (σ × List ο)
  | s, [] => some (s, [])
  | s, i :: is => (step s i).bind fun p => (run step p.1 is).map fun q => (q.1, p.2 :: q.2)

/-- The state after the inputs, and the outputs, of a machine whose steps cannot
fail. -/
def runTotal (step : α → ι → α) (out : α → ι → ω) : α → List ι → α × List ω
  | a, [] => (a, [])
  | a, i :: is => ((runTotal step out (step a i) is).1, out a i :: (runTotal step out (step a i) is).2)

@[simp] theorem run_nil (step : σ → ι → Option (σ × ο)) (s : σ) : run step s [] = some (s, []) := rfl

theorem run_cons (step : σ → ι → Option (σ × ο)) (s : σ) (i : ι) (is : List ι) :
    run step s (i :: is) =
      (step s i).bind fun p => (run step p.1 is).map fun q => (q.1, p.2 :: q.2) := rfl

theorem run_cons_eq_some_iff {step : σ → ι → Option (σ × ο)} {s s' : σ} {i : ι} {is : List ι} {o : ο}
    {os : List ο} : run step s (i :: is) = some (s', o :: os) ↔
      ∃ s₁, step s i = some (s₁, o) ∧ run step s₁ is = some (s', os) := by
  rw [run_cons, Option.bind_eq_some_iff]
  constructor
  · rintro ⟨⟨s₁, o₁⟩, hstep, hmap⟩
    obtain ⟨⟨s₂, os₂⟩, hrun, heq⟩ := Option.map_eq_some_iff.mp hmap
    simp only [Prod.mk.injEq, List.cons.injEq] at heq
    obtain ⟨rfl, rfl, rfl⟩ := heq
    exact ⟨s₁, hstep, hrun⟩
  · rintro ⟨s₁, hstep, hrun⟩
    exact ⟨(s₁, o), hstep, by simp [hrun]⟩

theorem run_append (step : σ → ι → Option (σ × ο)) : ∀ (is js : List ι) (s : σ),
    run step s (is ++ js) = (run step s is).bind fun r =>
      (run step r.1 js).map fun r' => (r'.1, r.2 ++ r'.2) := by
  intro is js
  induction is with
  | nil => intro s; simp [run_nil]
  | cons i is ih =>
    intro s
    rw [List.cons_append, run_cons, run_cons, Option.bind_assoc]
    refine Option.bind_congr fun p _ => ?_
    rw [ih p.1, Option.map_bind, Option.bind_map]
    refine Option.bind_congr fun r _ => ?_
    rw [Function.comp_apply, Option.map_map]
    rfl

/-- A run that goes on. -/
theorem run_trans {step : σ → ι → Option (σ × ο)} {s s₁ s₂ : σ} {is js : List ι} {os os' : List ο}
    (h : run step s is = some (s₁, os)) (h' : run step s₁ js = some (s₂, os')) :
    run step s (is ++ js) = some (s₂, os ++ os') := by
  rw [run_append, h, Option.bind_some, h', Option.map_some]

/-- A run with one more input. -/
theorem run_concat_eq_some_iff {step : σ → ι → Option (σ × ο)} {s s' : σ} {is : List ι} {i : ι}
    {os : List ο} : run step s (is ++ [i]) = some (s', os) ↔
      ∃ s₁ os₁ o, run step s is = some (s₁, os₁) ∧ step s₁ i = some (s', o) ∧ os = os₁ ++ [o] := by
  rw [run_append, Option.bind_eq_some_iff]
  constructor
  · rintro ⟨⟨s₁, os₁⟩, hrun, hmap⟩
    obtain ⟨⟨s₂, os₂⟩, hlast, heq⟩ := Option.map_eq_some_iff.mp hmap
    obtain ⟨⟨s₃, o⟩, hstep, hnil⟩ := Option.bind_eq_some_iff.mp hlast
    simp only [run_nil, Option.map_some, Option.some.injEq, Prod.mk.injEq] at hnil heq
    obtain ⟨rfl, rfl⟩ := hnil
    exact ⟨s₁, os₁, o, hrun, heq.1 ▸ hstep, heq.2.symm⟩
  · rintro ⟨s₁, os₁, o, hrun, hstep, rfl⟩
    exact ⟨(s₁, os₁), hrun, by simp [run_cons, hstep]⟩

/-- The start of a run is a run. -/
theorem exists_run_of_prefix {step : σ → ι → Option (σ × ο)} {s s' : σ} {p is : List ι} {os : List ο}
    (hp : p <+: is) (hrun : run step s is = some (s', os)) :
    ∃ s₁ os₁, run step s p = some (s₁, os₁) := by
  obtain ⟨rest, rfl⟩ := hp
  rw [run_append, Option.bind_eq_some_iff] at hrun
  obtain ⟨⟨s₁, os₁⟩, hrun₁, -⟩ := hrun
  exact ⟨s₁, os₁, hrun₁⟩

/-- **Guards.**  A machine that fails where a check does has a run exactly if the run without
the checks passes all of them. -/
theorem run_guard_eq_some_iff {step : σ → ι → Option (σ × ο)} {check : σ → ι → Prop}
    {step' : σ → ι → Option (σ × ο)}
    (hstep : ∀ s i r, step' s i = some r ↔ step s i = some r ∧ check s i) {s : σ} {is : List ι} :
    ∀ {s' : σ} {os : List ο}, run step' s is = some (s', os) ↔ run step s is = some (s', os) ∧
      ∀ p i, p ++ [i] <+: is → ∀ s₁ os₁, run step s p = some (s₁, os₁) → check s₁ i := by
  induction is using List.reverseRecOn with
  | nil =>
    intro s' os
    simp
  | append_singleton is i ih =>
    intro s' os
    rw [run_concat_eq_some_iff, run_concat_eq_some_iff]
    constructor
    · rintro ⟨s₁, os₁, o, hrun, hlast, rfl⟩
      obtain ⟨hrun, hchecks⟩ := ih.mp hrun
      obtain ⟨hlast, hcheck⟩ := (hstep _ _ _).mp hlast
      refine ⟨⟨s₁, os₁, o, hrun, hlast, rfl⟩, ?_⟩
      intro p j hp s₂ os₂ hrun₂
      rcases List.prefix_concat_iff.mp hp with heq | hp
      · -- the last input
        obtain ⟨rfl, hij⟩ := List.append_inj' heq rfl
        obtain rfl : j = i := by simpa using hij
        obtain ⟨rfl, -⟩ := Prod.mk.inj (Option.some.inj (hrun₂.symm.trans hrun))
        exact hcheck
      · exact hchecks p j hp s₂ os₂ hrun₂
    · rintro ⟨⟨s₁, os₁, o, hrun, hlast, rfl⟩, hchecks⟩
      refine ⟨s₁, os₁, o, ih.mpr ⟨hrun, ?_⟩, (hstep _ _ _).mpr ⟨hlast, ?_⟩, rfl⟩
      · intro p j hp
        exact hchecks p j (hp.trans (List.prefix_append _ _))
      · exact hchecks is i (List.prefix_refl _) s₁ os₁ hrun

/-- **Simulation.**  `ok a i` says that the input `i` is admissible in the state
`a` of the total machine, and `good` what every output is like. -/
theorem exists_run_of_sim {step : σ → ι → Option (σ × ο)} {astep : α → ι → α} {out : α → ι → ω}
    {obs : ο → ω} (rel : α → σ → Prop) (ok : α → ι → Prop) (good : ο → Prop)
    (hstep : ∀ a s i, rel a s → ok a i →
      ∃ s' o, step s i = some (s', o) ∧ rel (astep a i) s' ∧ obs o = out a i ∧ good o) :
    ∀ (is : List ι) (a : α) (s : σ), rel a s →
      (∀ p i, p ++ [i] <+: is → ok (p.foldl astep a) i) →
      ∃ s' os, run step s is = some (s', os) ∧ rel (is.foldl astep a) s' ∧
        os.map obs = (runTotal astep out a is).2 ∧ ∀ o ∈ os, good o := by
  intro is
  -- forward, so that the states of the total machine are those after each prefix
  induction is with
  | nil =>
    intro a s hrel _
    exact ⟨s, [], rfl, hrel, rfl, fun o ho => absurd ho List.not_mem_nil⟩
  | cons i is ih =>
    intro a s hrel hok
    obtain ⟨s₁, o, hs₁, hrel₁, hobs, hgood⟩ := hstep a s i hrel (hok [] i (by simp))
    have hok₁ : ∀ p j, p ++ [j] <+: is → ok (p.foldl astep (astep a i)) j := by
      intro p j hp
      exact hok (i :: p) j (by simpa using hp)
    obtain ⟨s', os, hrun, hrel', hos, hgoods⟩ := ih (astep a i) s₁ hrel₁ hok₁
    refine ⟨s', o :: os, ?_, hrel', ?_, ?_⟩
    · rw [run_cons, hs₁, Option.bind_some, hrun, Option.map_some]
    · rw [List.map_cons, hobs, hos]
      rfl
    · intro o' ho'
      rcases List.mem_cons.mp ho' with rfl | ho'
      · exact hgood
      · exact hgoods o' ho'

/-- A run with other outputs. -/
theorem run_map_out {ο' : Type*} {step : σ → ι → Option (σ × ο)} {step' : σ → ι → Option (σ × ο')}
    (f : ο → ο') (hstep : ∀ s i, step' s i = (step s i).map fun p => (p.1, f p.2)) :
    ∀ (is : List ι) (s : σ), run step' s is = (run step s is).map fun r => (r.1, r.2.map f) := by
  intro is
  induction is with
  | nil => intro s; rfl
  | cons i is ih =>
    intro s
    rw [run_cons, run_cons, hstep, Option.bind_map, Option.map_bind]
    refine Option.bind_congr fun p _ => ?_
    rw [Function.comp_apply, Function.comp_apply, ih, Option.map_map, Option.map_map]
    rfl

/-! ### Runs whose steps meet a condition -/

/-- `ok` holds at every step of the run from `s`.  The state of a total machine, from
`a` on, is kept alongside for it to look at. -/
def along (step : σ → ι → Option (σ × ο)) (astep : α → ι → α) (ok : α → σ → ι → Prop) :
    α → σ → List ι → Prop
  | _, _, [] => True
  | a, s, i :: is => ok a s i ∧
      match step s i with
      | none => True
      | some p => along step astep ok (astep a i) p.1 is

instance decidableAlong (step : σ → ι → Option (σ × ο)) (astep : α → ι → α) (ok : α → σ → ι → Prop)
    [∀ a s i, Decidable (ok a s i)] : ∀ a s is, Decidable (along step astep ok a s is)
  | _, _, [] => isTrue trivial
  | a, s, i :: is =>
      have : Decidable (match step s i with
          | none => True
          | some p => along step astep ok (astep a i) p.1 is) :=
        match step s i with
        | none => isTrue trivial
        | some p => decidableAlong step astep ok (astep a i) p.1 is
      inferInstanceAs (Decidable (_ ∧ _))

/-- What holds of every input and the inputs before it, index by index. -/
theorem forall_prefix_concat_iff {P : List ι → ι → Prop} {is : List ι} :
    (∀ p i, p ++ [i] <+: is → P p i) ↔ ∀ j, (hj : j < is.length) → P (is.take j) is[j] := by
  constructor
  · intro h j hj
    refine h _ _ ?_
    rw [List.take_append_getElem hj]
    exact List.take_prefix _ _
  · rintro h p i ⟨t, rfl⟩
    have := h p.length (by simp)
    simpa using this

/-- **Two total machines** of which one sees more of its inputs, and shows more. -/
theorem runTotal_sim {β κ ω' : Type*} (step : α → ι → α) (out : α → ι → ω) (step' : β → κ → β)
    (out' : β → κ → ω') (f : α → β) (g : κ → ι) (obs : ω → κ → ω')
    (hstep : ∀ a j, f (step a (g j)) = step' (f a) j)
    (hout : ∀ a j, out' (f a) j = obs (out a (g j)) j) :
    ∀ (js : List κ) (a : α), (runTotal step' out' (f a) js).2 =
      List.zipWith obs (runTotal step out a (js.map g)).2 js := by
  intro js
  induction js with
  | nil => intro a; rfl
  | cons j js ih =>
    intro a
    rw [List.map_cons, runTotal, runTotal, List.zipWith_cons_cons, hout, ← hstep, ih]

/-- **A way to an end.**  As long as the end is not reached, some step keeps the invariant
and leaves less to do. -/
theorem exists_reflTransGen_of_lt {r : α → α → Prop} (inv done : α → Prop) (measure : α → ℕ)
    (hstep : ∀ a, inv a → ¬ done a → ∃ b, r a b ∧ inv b ∧ measure b < measure a) {a : α} (ha : inv a) :
    ∃ b, Relation.ReflTransGen r a b ∧ inv b ∧ done b := by
  induction hn : measure a using Nat.strong_induction_on generalizing a with
  | _ n ih =>
    by_cases hdone : done a
    · exact ⟨a, .refl, ha, hdone⟩
    · obtain ⟨b, hab, hb, hlt⟩ := hstep a ha hdone
      obtain ⟨c, hbc, hc⟩ := ih (measure b) (hn ▸ hlt) hb rfl
      exact ⟨c, .head hab hbc, hc⟩

end Run
