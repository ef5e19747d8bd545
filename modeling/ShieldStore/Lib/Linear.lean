import ShieldStore.Lib.Run

/-!
# Linearizability

A history is what callers see of an object: calls start and return, and those of
different callers overlap.  It is **linearizable** if the calls can be put in an order in
which the object, taking them one after the other, gives the results that were
returned, and in which no call comes before one that had returned when it started.

Calls that are under way may be in the order or not: whether such a call has taken effect
is not known yet.

## Main definitions

* `Event`, `Precedes` — histories and their real-time order.
* `Linearization` — the order that a linearizable history has.
* `Causal`, `Numbered` — no call returns before it starts, and calls are numbered in the
  order in which they start.

## Main results

* `Linearization.of_increasing` — **taking calls in the order in which they start is a
  linearization, if the results are right.**
-/

namespace Linear

open Run

variable {ι ο σ : Type}

/-- A call starts, or it returns.  Every call has a number of its own. -/
inductive Event (ι ο : Type)
  | call (n : ℕ) (op : ι)
  | ret (n : ℕ) (r : ο)
  deriving DecidableEq

/-- Call `a` has returned when call `b` starts. -/
def Precedes (h : List (Event ι ο)) (a b : ℕ) : Prop :=
  ∃ h₁ h₂, h = h₁ ++ h₂ ∧ (∃ r, .ret a r ∈ h₁) ∧ ∃ op, .call b op ∈ h₂

/-- The calls `l`, each with its number, operation and result, are an order of those of
the history `h` in which the object that `step` and `out` describe gives the results. -/
structure Linearization (step : σ → ι → σ) (out : σ → ι → ο) (s : σ) (h : List (Event ι ο))
    (l : List (ℕ × ι × ο)) : Prop where
  called : ∀ c ∈ l, Event.call c.1 c.2.1 ∈ h
  once : (l.map Prod.fst).Nodup
  returned : ∀ n r, Event.ret n r ∈ h → ∃ op, (n, op, r) ∈ l
  order : l.Pairwise fun c d => ¬ Precedes h d.1 c.1
  legal : l.map (fun c => c.2.2) = (runTotal step out s (l.map fun c => c.2.1)).2

/-! ### Histories that are numbered in order -/

/-- The numbers of the calls, in the order in which they start. -/
def calls (h : List (Event ι ο)) : List ℕ :=
  h.filterMap fun
    | .call n _ => some n
    | .ret _ _ => none

/-- No call returns before it has started. -/
def Causal (h : List (Event ι ο)) : Prop :=
  ∀ h₁ n r h₂, h = h₁ ++ .ret n r :: h₂ → ∃ op, .call n op ∈ h₁

/-- Calls are numbered in the order in which they start. -/
def Numbered (h : List (Event ι ο)) : Prop := (calls h).Pairwise (· < ·)

theorem calls_append (h h' : List (Event ι ο)) : calls (h ++ h') = calls h ++ calls h' :=
  List.filterMap_append

theorem mem_calls {h : List (Event ι ο)} {n : ℕ} {op : ι} (hmem : .call n op ∈ h) : n ∈ calls h :=
  List.mem_filterMap.mpr ⟨_, hmem, rfl⟩

theorem Causal.nil : Causal ([] : List (Event ι ο)) := by
  intro h₁ n r h₂ heq
  simp at heq

/-- What is added returns calls that had started before. -/
theorem Causal.append {h h' : List (Event ι ο)} (hc : Causal h)
    (hret : ∀ n r, .ret n r ∈ h' → ∃ op, .call n op ∈ h) : Causal (h ++ h') := by
  intro h₁ n r h₂ heq
  rcases List.append_eq_append_iff.mp heq with ⟨t, rfl, rfl⟩ | ⟨t, rfl, htail⟩
  · obtain ⟨op, hop⟩ := hret n r (by simp)
    exact ⟨op, List.mem_append_left _ hop⟩
  · cases t with
    | nil =>
      rw [List.nil_append] at htail
      obtain ⟨op, hop⟩ := hret n r (htail ▸ List.mem_cons_self)
      exact ⟨op, by simpa using hop⟩
    | cons e t =>
      rw [List.cons_append, List.cons.injEq] at htail
      obtain ⟨rfl, -⟩ := htail
      exact hc h₁ n r t rfl

/-- A call that has returned has the smaller number. -/
theorem Numbered.lt_of_precedes {h : List (Event ι ο)} (hn : Numbered h) (hc : Causal h) {a b : ℕ}
    (hab : Precedes h a b) : a < b := by
  obtain ⟨h₁, h₂, rfl, ⟨r, hret⟩, op, hcall⟩ := hab
  obtain ⟨t₁, t₂, rfl⟩ := List.mem_iff_append.mp hret
  obtain ⟨op', hcall'⟩ := hc t₁ a r (t₂ ++ h₂) (by simp)
  rw [Numbered, calls_append, List.pairwise_append] at hn
  exact hn.2.2 a (mem_calls (List.mem_append_left _ hcall')) b (mem_calls hcall)

/-- **The order in which calls start is a linearization**, if the results are right. -/
theorem Linearization.of_increasing {step : σ → ι → σ} {out : σ → ι → ο} {s : σ}
    {h : List (Event ι ο)} {l : List (ℕ × ι × ο)} (hn : Numbered h) (hc : Causal h)
    (hl : (l.map Prod.fst).Pairwise (· < ·)) (hcalled : ∀ c ∈ l, Event.call c.1 c.2.1 ∈ h)
    (hreturned : ∀ n r, Event.ret n r ∈ h → ∃ op, (n, op, r) ∈ l)
    (hlegal : l.map (fun c => c.2.2) = (runTotal step out s (l.map fun c => c.2.1)).2) :
    Linearization step out s h l where
  called := hcalled
  once := hl.imp Nat.ne_of_lt
  returned := hreturned
  order := by
    rw [List.pairwise_map] at hl
    refine hl.imp ?_
    intro c d hlt hprecedes
    exact absurd (hn.lt_of_precedes hc hprecedes) (Nat.not_lt.mpr hlt.le)
  legal := hlegal

end Linear
