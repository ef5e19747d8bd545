import Mathlib.Data.List.Infix
import ShieldStore.Lib.Run

/-!
# Steps on separate parts of a state

A state has parts, and every step reads and writes one of them.  Steps on different
parts commute, so a step can be moved to an earlier place of a run as long as it only
passes steps on other parts.

## Main definitions

* `Local` — every step keeps to its part.

## Main results

* `Local.swap` — two steps on different parts commute.
* `Local.run_insert_append` — a step moves to an earlier place of a run, past steps on
  other parts.
* `exists_prefix_filter` — a prefix of what is kept of a list is what is kept of a
  prefix.
-/

namespace Run

variable {σ ι ο κ : Type*}

theorem length_run {step : σ → ι → Option (σ × ο)} : ∀ {is : List ι} {s s' : σ} {os : List ο},
    run step s is = some (s', os) → os.length = is.length := by
  intro is
  induction is with
  | nil =>
    intro s s' os h
    rw [run_nil, Option.some.injEq, Prod.mk.injEq] at h
    rw [← h.2]
    rfl
  | cons i is ih =>
    intro s s' os h
    rw [run_cons, Option.bind_eq_some_iff] at h
    obtain ⟨p, -, h⟩ := h
    obtain ⟨⟨s'', os'⟩, hrun, heq⟩ := Option.map_eq_some_iff.mp h
    rw [← (Prod.mk.inj heq).2, List.length_cons, List.length_cons, ih hrun]

/-! ### Local steps -/

/-- Every step keeps to its part: what it does depends on its part only, and the other
parts stay as they are.  `agree k` says that two states have the same part `k`; states
with the same parts are the same.  Only the inputs that are `ok` are looked at. -/
structure Local (step : σ → ι → Option (σ × ο)) (agree : κ → σ → σ → Prop) (part : ι → κ)
    (ok : ι → Prop) : Prop where
  equiv : ∀ k, Equivalence (agree k)
  ext : ∀ {s t}, (∀ k, agree k s t) → s = t
  reads : ∀ {i s t s' o}, ok i → agree (part i) s t → step s i = some (s', o) →
    ∃ t', step t i = some (t', o) ∧ agree (part i) s' t'
  writes : ∀ {i s s' o k}, ok i → step s i = some (s', o) → k ≠ part i → agree k s s'

section Local

variable {step : σ → ι → Option (σ × ο)} {agree : κ → σ → σ → Prop} {part : ι → κ} {ok : ι → Prop}
  (h : Local step agree part ok)

include h

/-- **Two steps on different parts commute.** -/
theorem Local.swap {a b : ι} (ha : ok a) (hb : ok b) (hne : part a ≠ part b) {s s₁ s₂ : σ} {o p : ο}
    (hstep₁ : step s a = some (s₁, o)) (hstep₂ : step s₁ b = some (s₂, p)) :
    ∃ t, step s b = some (t, p) ∧ step t a = some (s₂, o) := by
  obtain ⟨t, ht, hb_eq⟩ := h.reads hb ((h.equiv _).symm (h.writes ha hstep₁ hne.symm)) hstep₂
  obtain ⟨t₂, ht₂, ha_eq⟩ := h.reads ha (h.writes hb ht hne) hstep₁
  refine ⟨t, ht, ?_⟩
  -- part by part, the two ways around end in the same state
  have hsame : s₂ = t₂ := by
    refine h.ext fun k => ?_
    by_cases hka : k = part a
    · subst hka
      exact (h.equiv _).trans ((h.equiv _).symm (h.writes hb hstep₂ hne)) ha_eq
    · have hk₁ := h.writes ha hstep₁ hka
      have hk₂ := h.writes ha ht₂ hka
      by_cases hkb : k = part b
      · subst hkb
        exact (h.equiv _).trans hb_eq hk₂
      · have hk₃ := h.writes hb hstep₂ hkb
        have hk₄ := h.writes hb ht hkb
        exact (h.equiv _).trans ((h.equiv _).symm ((h.equiv _).trans hk₁ hk₃))
          ((h.equiv _).trans hk₄ hk₂)
  rw [hsame]
  exact ht₂

/-- **A step moves to the front** of a run on other parts. -/
theorem Local.run_insert {x : ι} (hx : ok x) {o : ο} : ∀ {is : List ι} {s s₁ s₂ : σ} {os : List ο},
    (∀ i ∈ is, ok i ∧ part i ≠ part x) → run step s is = some (s₁, os) →
    step s₁ x = some (s₂, o) → ∃ t, step s x = some (t, o) ∧ run step t is = some (s₂, os) := by
  intro is
  induction is with
  | nil =>
    intro s s₁ s₂ os _ hrun hstep
    rw [run_nil, Option.some.injEq, Prod.mk.injEq] at hrun
    obtain ⟨rfl, rfl⟩ := hrun
    exact ⟨s₂, hstep, rfl⟩
  | cons i is ih =>
    intro s s₁ s₂ os his hrun hstep
    rw [run_cons, Option.bind_eq_some_iff] at hrun
    obtain ⟨⟨u, p⟩, hu, hrest⟩ := hrun
    obtain ⟨⟨s₁', os'⟩, hrun', heq⟩ := Option.map_eq_some_iff.mp hrest
    obtain ⟨rfl, rfl⟩ := Prod.mk.inj heq
    obtain ⟨t, ht, hrun''⟩ := ih (fun i' hi' => his i' (List.mem_cons_of_mem _ hi')) hrun' hstep
    obtain ⟨hok, hne⟩ := his i List.mem_cons_self
    obtain ⟨t', ht', hi⟩ := h.swap hok hx hne hu ht
    refine ⟨t', ht', ?_⟩
    rw [run_cons, hi, Option.bind_some, hrun'']
    rfl

/-- **A step moves to an earlier place** of a run, past steps on other parts. -/
theorem Local.run_insert_append {x : ι} (hx : ok x) {is js : List ι} {s s₁ s₂ : σ} {os ps : List ο}
    {o : ο} (hjs : ∀ i ∈ js, ok i ∧ part i ≠ part x) (hlen : os.length = is.length)
    (hrun : run step s (is ++ js) = some (s₁, os ++ ps)) (hstep : step s₁ x = some (s₂, o)) :
    run step s (is ++ x :: js) = some (s₂, os ++ o :: ps) := by
  rw [run_append, Option.bind_eq_some_iff] at hrun
  obtain ⟨⟨u, os'⟩, hu, hrest⟩ := hrun
  obtain ⟨⟨s₁', ps'⟩, hps, heq⟩ := Option.map_eq_some_iff.mp hrest
  obtain ⟨rfl, hos⟩ := Prod.mk.inj heq
  obtain ⟨rfl, rfl⟩ := List.append_inj hos ((length_run hu).trans hlen.symm)
  obtain ⟨t, ht, hrun'⟩ := h.run_insert hx hjs hps hstep
  rw [run_append, hu, Option.bind_some, run_cons, ht, Option.bind_some, hrun']
  rfl

end Local

/-! ### Prefixes -/

/-- A prefix of what is kept of a list is what is kept of a prefix. -/
theorem exists_prefix_filter {p : ι → Bool} : ∀ {is js : List ι}, js <+: is.filter p →
    ∃ is', is' <+: is ∧ is'.filter p = js := by
  intro is
  induction is with
  | nil =>
    intro js h
    exact ⟨[], List.prefix_refl _, (List.prefix_nil.mp h).symm⟩
  | cons i is ih =>
    intro js h
    by_cases hi : p i = true
    · rw [List.filter_cons_of_pos hi] at h
      rcases List.prefix_cons_iff.mp h with rfl | ⟨js', rfl, hjs⟩
      · exact ⟨[], List.nil_prefix, rfl⟩
      · obtain ⟨is', his, rfl⟩ := ih hjs
        exact ⟨i :: is', List.cons_prefix_cons.mpr ⟨rfl, his⟩, List.filter_cons_of_pos hi⟩
    · rw [List.filter_cons_of_neg hi] at h
      obtain ⟨is', his, rfl⟩ := ih h
      exact ⟨i :: is', List.cons_prefix_cons.mpr ⟨rfl, his⟩, List.filter_cons_of_neg hi⟩

end Run
