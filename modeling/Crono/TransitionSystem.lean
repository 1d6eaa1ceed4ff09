import Mathlib.Data.List.Induction
import Mathlib.Logic.Relation

/-! Labelled transition systems with an enabling condition and a next-state function:
executions, reachability, the invariant rule, monotone relations along executions,
restriction of the schedule, and projections onto another system. -/

structure TransitionSystem (σ ε : Type*) where
  initial : σ → Prop
  Enabled : σ → ε → Prop
  next : σ → ε → σ

namespace TransitionSystem

variable {σ ε τ φ : Type*} {S : TransitionSystem σ ε} {T : TransitionSystem τ φ}

def Step (S : TransitionSystem σ ε) (s : σ) (e : ε) (t : σ) : Prop :=
  S.Enabled s e ∧ t = S.next s e

inductive Execution (S : TransitionSystem σ ε) : σ → σ → Prop where
  | refl (s) : Execution S s s
  | tail {s t u e} : Execution S s t → S.Step t e u → Execution S s u

def Reachable (S : TransitionSystem σ ε) (s : σ) : Prop := ∃ i, S.initial i ∧ S.Execution i s

theorem Execution.single {s t : σ} {e : ε} (h : S.Step s e t) : S.Execution s t :=
  .tail (.refl s) h

theorem Execution.trans {s t u : σ} (h : S.Execution s t) (k : S.Execution t u) :
    S.Execution s u := by
  induction k with
  | refl => exact h
  | tail _ hstep ih => exact .tail ih hstep

/-- The state after a list of events. -/
def run (S : TransitionSystem σ ε) (s : σ) (events : List ε) : σ := events.foldl S.next s

/-- Every event of the list is enabled when its turn comes. -/
def Admits (S : TransitionSystem σ ε) : σ → List ε → Prop
  | _, [] => True
  | s, e :: events => S.Enabled s e ∧ S.Admits (S.next s e) events

theorem Execution.of_admits {s : σ} {events : List ε} (h : S.Admits s events) :
    S.Execution s (S.run s events) := by
  induction events generalizing s with
  | nil => exact .refl s
  | cons e events ih => exact (Execution.single ⟨h.1, rfl⟩).trans (ih h.2)

theorem run_concat (s : σ) (events : List ε) (e : ε) :
    S.run s (events ++ [e]) = S.next (S.run s events) e := by
  rw [run, List.foldl_append]
  rfl

theorem admits_append {s : σ} {events later : List ε} :
    S.Admits s (events ++ later) ↔ S.Admits s events ∧ S.Admits (S.run s events) later := by
  induction events generalizing s with
  | nil => exact Iff.symm (and_iff_right trivial)
  | cons e events ih =>
    rw [List.cons_append, Admits, ih, Admits, and_assoc]
    exact Iff.rfl

/-- What every event keeps of a run and the events so far holds of every run. -/
theorem Admits.invariant {s : σ} {P : List ε → σ → Prop} (hnil : P [] s)
    (hstep : ∀ events e t, S.Execution s t → S.Enabled t e → P events t →
      P (events ++ [e]) (S.next t e)) {events : List ε} (h : S.Admits s events) :
    P events (S.run s events) := by
  induction events using List.reverseRecOn with
  | nil => exact hnil
  | append_singleton events e ih =>
    obtain ⟨hbefore, henabled, _⟩ := admits_append.mp h
    rw [run_concat]
    exact hstep events e _ (.of_admits hbefore) henabled (ih hbefore)

theorem Reachable.initial {s : σ} (h : S.initial s) : S.Reachable s := ⟨s, h, .refl s⟩

theorem Reachable.tail {s t : σ} {e : ε} (h : S.Reachable s) (k : S.Step s e t) :
    S.Reachable t := by
  obtain ⟨i, hi, hs⟩ := h
  exact ⟨i, hi, .tail hs k⟩

theorem Reachable.execution {s t : σ} (h : S.Reachable s) (k : S.Execution s t) :
    S.Reachable t := by
  obtain ⟨i, hi, hs⟩ := h
  exact ⟨i, hi, hs.trans k⟩

/-- An invariant that every step keeps holds along an execution. -/
theorem Execution.invariant {P : σ → Prop} (hstep : ∀ s e t, P s → S.Step s e t → P t)
    {s t : σ} (h : S.Execution s t) (hs : P s) : P t := by
  induction h with
  | refl => exact hs
  | tail _ k ih => exact hstep _ _ _ ih k

theorem Reachable.invariant {P : σ → Prop} (hinit : ∀ s, S.initial s → P s)
    (hstep : ∀ s e t, P s → S.Step s e t → P t) {s : σ} (h : S.Reachable s) : P s := by
  obtain ⟨i, hi, hs⟩ := h
  exact hs.invariant hstep (hinit i hi)

/-- The invariant rule, with an invariant already known of every reachable state. -/
theorem Reachable.invariant_of {P Q : σ → Prop} (hQ : ∀ s, S.Reachable s → Q s)
    (hinit : ∀ s, S.initial s → P s)
    (hstep : ∀ s e t, Q s → P s → S.Step s e t → P t) {s : σ} (h : S.Reachable s) : P s := by
  obtain ⟨i, hi, hs⟩ := h
  induction hs with
  | refl => exact hinit i hi
  | tail hpre k ih => exact hstep _ _ _ (hQ _ ⟨i, hi, hpre⟩) ih k

/-- How often an observation of the state changes along a list of events. -/
def changes {α : Type*} [DecidableEq α] (S : TransitionSystem σ ε) (observe : σ → α) :
    σ → List ε → ℕ
  | _, [] => 0
  | s, e :: events => (if observe (S.next s e) = observe s then 0 else 1) +
      S.changes observe (S.next s e) events

/-- The ranking rule: where a step that changes the observation lowers the measure, and no
step raises it, the measure bounds the changes of the observation. -/
theorem Admits.changes_le {α : Type*} [DecidableEq α] {observe : σ → α} {measure : σ → ℕ} {s : σ}
    (hstep : ∀ t e u, S.Execution s t → S.Step t e u →
      (observe u = observe t ∧ measure u ≤ measure t) ∨ measure u < measure t)
    {events : List ε} (h : S.Admits s events) :
    S.changes observe s events + measure (S.run s events) ≤ measure s := by
  induction events generalizing s with
  | nil => exact Nat.le_of_eq (Nat.zero_add _)
  | cons e events ih =>
    have hfirst : S.Step s e (S.next s e) := ⟨h.1, rfl⟩
    have hrest := ih (fun t e' u ht hu => hstep t e' u ((Execution.single hfirst).trans ht) hu) h.2
    have hrun : S.run s (e :: events) = S.run (S.next s e) events := rfl
    rw [changes, hrun]
    rcases hstep s e _ (.refl s) hfirst with ⟨hsame, hle⟩ | hlt
    · rw [if_pos hsame]
      omega
    · by_cases hsame : observe (S.next s e) = observe s
      · rw [if_pos hsame]
        omega
      · rw [if_neg hsame]
        omega

/-- A preorder that every step from a reachable state respects relates the ends of an
execution. -/
theorem Reachable.relates {R : σ → σ → Prop} (hrefl : ∀ s, R s s)
    (htrans : ∀ s t u, R s t → R t u → R s u)
    (hstep : ∀ s e t, S.Reachable s → S.Step s e t → R s t) {s t : σ} (hs : S.Reachable s)
    (h : S.Execution s t) : R s t := by
  induction h with
  | refl => exact hrefl s
  | tail hpre k ih => exact htrans _ _ _ ih (hstep _ _ _ (hs.execution hpre) k)

/-- The same system under a scheduler that only takes the steps `C` accepts. -/
def restrict (S : TransitionSystem σ ε) (C : σ → ε → Prop) : TransitionSystem σ ε where
  initial := S.initial
  Enabled := fun s e => S.Enabled s e ∧ C s e
  next := S.next

theorem Execution.of_restrict {C : σ → ε → Prop} {s t : σ}
    (h : (S.restrict C).Execution s t) : S.Execution s t := by
  induction h with
  | refl => exact .refl s
  | tail _ k ih => exact .tail ih ⟨k.1.1, k.2⟩

theorem Reachable.of_restrict {C : σ → ε → Prop} {s : σ} (h : (S.restrict C).Reachable s) :
    S.Reachable s := by
  obtain ⟨i, hi, hs⟩ := h
  exact ⟨i, hi, hs.of_restrict⟩

/-- A map of states under which every step is an execution of the other system. -/
structure Projection (S : TransitionSystem σ ε) (T : TransitionSystem τ φ) where
  map : σ → τ
  initial : ∀ s, S.initial s → T.initial (map s)
  step : ∀ s e t, S.Step s e t → T.Execution (map s) (map t)

theorem Projection.execution (P : Projection S T) {s t : σ} (h : S.Execution s t) :
    T.Execution (P.map s) (P.map t) := by
  induction h with
  | refl => exact .refl _
  | tail _ k ih => exact ih.trans (P.step _ _ _ k)

theorem Projection.reachable (P : Projection S T) {s : σ} (h : S.Reachable s) :
    T.Reachable (P.map s) := by
  obtain ⟨i, hi, hs⟩ := h
  exact ⟨P.map i, P.initial i hi, P.execution hs⟩

end TransitionSystem
