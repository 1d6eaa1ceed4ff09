import Crono.TransitionSystem

/-! Clients that share a transition system. A client reads a view of the shared state or performs
one event at a time, and other clients and the environment take steps in between. What a program
does is proved against every later state of the system; the rule for the whole system of clients
follows. -/
namespace ClientPrograms

/-- What a client still has to do. The continuation of an event is given the view it was performed
on. -/
inductive Program (ρ φ α : Type) where
  | done (a : α)
  | read (resume : ρ → Program ρ φ α)
  | perform (event : φ) (resume : ρ → Program ρ φ α)

namespace Program

variable {ρ φ α β : Type}

def bind (p : Program ρ φ α) (f : α → Program ρ φ β) : Program ρ φ β :=
  match p with
  | .done a => f a
  | .read resume => .read fun v => (resume v).bind f
  | .perform e resume => .perform e fun v => (resume v).bind f

instance : Monad (Program ρ φ) where
  pure := .done
  bind := .bind

/-- A program that is not interrupted. -/
def run (apply : ρ → φ → ρ) : Program ρ φ α → ρ → α × ρ
  | .done a, v => (a, v)
  | .read resume, v => (resume v).run apply v
  | .perform e resume, v => (resume v).run apply (apply v e)

theorem run_bind (apply : ρ → φ → ρ) (p : Program ρ φ α) (f : α → Program ρ φ β) (v : ρ) :
    (p.bind f).run apply v = (f (p.run apply v).1).run apply (p.run apply v).2 := by
  induction p generalizing v with
  | done a => rfl
  | read resume ih => exact ih v v
  | perform e resume ih => exact ih v (apply v e)

end Program

section Ensures

variable {σ ε ρ φ α β : Type} (S : TransitionSystem σ ε) (view : σ → ρ) (event : φ → ε)
  (allowed : σ → φ → Prop)

/-- From a state the program has seen, whatever the system does between its steps, it performs
allowed events only and ends with `Q`. -/
def Ensures (Q : α → σ → Prop) : σ → Program ρ φ α → Prop
  | s, .done a => Q a s
  | s, .read resume => ∀ t, S.Execution s t → Ensures Q t (resume (view t))
  | s, .perform e resume => ∀ t, S.Execution s t → S.Enabled t (event e) →
      allowed t e ∧ Ensures Q (S.next t (event e)) (resume (view t))

variable {S view event allowed}

theorem Ensures.bind {P : α → σ → Prop} {Q : β → σ → Prop} {p : Program ρ φ α}
    {f : α → Program ρ φ β} {s : σ} (h : Ensures S view event allowed P s p)
    (hf : ∀ a t, P a t → Ensures S view event allowed Q t (f a)) :
    Ensures S view event allowed Q s (p.bind f) := by
  induction p generalizing s with
  | done a => exact hf a s h
  | read resume ih => exact fun t ht => ih (view t) (h t ht)
  | perform e resume ih =>
    intro t ht he
    exact ⟨(h t ht he).1, ih (view t) (h t ht he).2⟩

theorem Ensures.later {Q : α → σ → Prop} (hQ : ∀ a s t, S.Execution s t → Q a s → Q a t)
    {p : Program ρ φ α} {s t : σ} (h : Ensures S view event allowed Q s p)
    (ht : S.Execution s t) : Ensures S view event allowed Q t p := by
  cases p with
  | done a => exact hQ a s t ht h
  | read resume => exact fun u hu => h u (ht.trans hu)
  | perform e resume => exact fun u hu he => h u (ht.trans hu) he

theorem Ensures.mono {P Q : α → σ → Prop} (hPQ : ∀ a s, P a s → Q a s) {p : Program ρ φ α}
    {s : σ} (h : Ensures S view event allowed P s p) : Ensures S view event allowed Q s p := by
  induction p generalizing s with
  | done a => exact hPQ a s h
  | read resume ih => exact fun t ht => ih (view t) (h t ht)
  | perform e resume ih =>
    intro t ht he
    exact ⟨(h t ht he).1, ih (view t) (h t ht he).2⟩

end Ensures

section Clean

variable {ρ φ α β : Type} (unchanged : ρ → φ → Prop) (failed : α → Prop)

def Settles : Program ρ φ α → Prop
  | .done a => ¬ failed a
  | .read resume => ∀ v, Settles (resume v)
  | .perform _ resume => ∀ v, Settles (resume v)

/-- Once an event has changed something, the program does not fail any more. -/
def Clean : Program ρ φ α → Prop
  | .done _ => True
  | .read resume => ∀ v, Clean (resume v)
  | .perform e resume => ∀ v, (unchanged v e ∧ Clean (resume v)) ∨ Settles failed (resume v)

end Clean

section ReadOnly

variable {ρ φ α β : Type}

def ReadOnly : Program ρ φ α → Prop
  | .done _ => True
  | .read resume => ∀ v, ReadOnly (resume v)
  | .perform _ _ => False

theorem ReadOnly.bind {p : Program ρ φ α} {f : α → Program ρ φ β} (h : ReadOnly p)
    (hf : ∀ a, ReadOnly (f a)) : ReadOnly (p.bind f) := by
  induction p with
  | done a => exact hf a
  | read resume ih => exact fun v => ih v (h v)
  | perform e resume ih => exact h.elim

theorem ReadOnly.clean_bind {unchanged : ρ → φ → Prop} {failed : β → Prop} {p : Program ρ φ α}
    {f : α → Program ρ φ β} (h : ReadOnly p) (hf : ∀ a, Clean unchanged failed (f a)) :
    Clean unchanged failed (p.bind f) := by
  induction p with
  | done a => exact hf a
  | read resume ih => exact fun v => ih v (h v)
  | perform e resume ih => exact h.elim

theorem ReadOnly.clean {unchanged : ρ → φ → Prop} {failed : α → Prop} {p : Program ρ φ α}
    (h : ReadOnly p) : Clean unchanged failed p := by
  induction p with
  | done a => trivial
  | read resume ih => exact fun v => ih v (h v)
  | perform e resume ih => exact h.elim

theorem Settles.bind {failed : α → Prop} {failed' : β → Prop} {p : Program ρ φ α}
    {f : α → Program ρ φ β} (h : Settles failed p)
    (hf : ∀ a, ¬ failed a → Settles failed' (f a)) : Settles failed' (p.bind f) := by
  induction p with
  | done a => exact hf a h
  | read resume ih => exact fun v => ih v (h v)
  | perform e resume ih => exact fun v => ih v (h v)

theorem Clean.map {unchanged : ρ → φ → Prop} {failed : α → Prop} {failed' : β → Prop}
    {p : Program ρ φ α} {g : α → β} (h : Clean unchanged failed p)
    (hg : ∀ a, failed' (g a) → failed a) :
    Clean unchanged failed' (p.bind fun a => .done (g a)) := by
  induction p with
  | done a => trivial
  | read resume ih => exact fun v => ih v (h v)
  | perform e resume ih =>
    intro v
    rcases h v with ⟨hsame, hclean⟩ | hsettles
    · exact .inl ⟨hsame, ih v hclean⟩
    · exact .inr (hsettles.bind fun a ha hfailed => ha (hg a hfailed))

end ReadOnly

section Fallible

variable {σ ε ρ φ δ α β : Type}

theorem ReadOnly.bindExcept {x : ExceptT δ (Program ρ φ) α} {f : α → ExceptT δ (Program ρ φ) β}
    (h : ReadOnly x.run) (hf : ∀ a, ReadOnly (f a).run) : ReadOnly (x >>= f).run := by
  apply ReadOnly.bind h
  intro r
  cases r with
  | ok a => exact hf a
  | error e => trivial

variable {S : TransitionSystem σ ε} {view : σ → ρ} {event : φ → ε} {allowed : σ → φ → Prop}

/-- The program performs allowed events only, and `P` holds of what it returns, if it does. -/
def Yields (S : TransitionSystem σ ε) (view : σ → ρ) (event : φ → ε) (allowed : σ → φ → Prop)
    (P : α → σ → Prop) (s : σ) (x : ExceptT δ (Program ρ φ) α) : Prop :=
  Ensures S view event allowed (fun r t => S.Execution s t ∧ ∀ a, r = .ok a → P a t) s x.run

theorem Yields.bind {P : α → σ → Prop} {Q : β → σ → Prop} {s : σ}
    {x : ExceptT δ (Program ρ φ) α} {f : α → ExceptT δ (Program ρ φ) β}
    (h : Yields S view event allowed P s x)
    (hf : ∀ a t, S.Execution s t → P a t → Yields S view event allowed Q t (f a)) :
    Yields S view event allowed Q s (x >>= f) := by
  apply Ensures.bind h
  rintro r t ⟨ht, hP⟩
  cases r with
  | ok a => exact (hf a t ht (hP a rfl)).mono fun _ _ hQ => ⟨ht.trans hQ.1, hQ.2⟩
  | error e => exact ⟨ht, fun _ hok => nomatch hok⟩

theorem Yields.mono {P Q : α → σ → Prop} {s : σ} {x : ExceptT δ (Program ρ φ) α}
    (hPQ : ∀ a t, P a t → Q a t) (h : Yields S view event allowed P s x) :
    Yields S view event allowed Q s x :=
  Ensures.mono (fun _ t hP => ⟨hP.1, fun a ha => hPQ a t (hP.2 a ha)⟩) h

/-- Later states are reachable from a reachable one. -/
theorem Yields.mono_reachable {P Q : α → σ → Prop} {s : σ} {x : ExceptT δ (Program ρ φ) α}
    (hs : S.Reachable s) (hPQ : ∀ a t, S.Reachable t → P a t → Q a t)
    (h : Yields S view event allowed P s x) : Yields S view event allowed Q s x :=
  Ensures.mono (fun _ t hP => ⟨hP.1, fun a ha => hPQ a t (hs.execution hP.1) (hP.2 a ha)⟩) h

theorem ReadOnly.yields {x : ExceptT δ (Program ρ φ) α} (h : ReadOnly x.run) (s : σ) :
    Yields S view event allowed (fun _ _ => True) s x := by
  have hensures : ∀ (p : Program ρ φ (Except δ α)) t, ReadOnly p → S.Execution s t →
      Ensures S view event allowed (fun r u => S.Execution s u ∧ ∀ a, r = .ok a → True) t p := by
    intro p
    induction p with
    | done r => exact fun t _ ht => ⟨ht, fun _ _ => trivial⟩
    | read resume ih => exact fun t hp ht u hu => ih _ u (hp _) (ht.trans hu)
    | perform e resume ih => exact fun t hp _ => hp.elim
  exact hensures x.run s h (.refl s)

end Fallible

section Blind

variable {ρ φ δ α β : Type} (apply : ρ → φ → ρ) (hide : ρ → ρ)

/-- The program answers on the projected state as on the state itself, and changes the one as it
changes the other. -/
def Blind (p : Program ρ φ α) (v : ρ) : Prop :=
  p.run apply (hide v) = ((p.run apply v).1, hide (p.run apply v).2)

/-- The program is blind, and `Q` holds of what it returns, if it does, and of the state it
leaves. -/
def BlindTo (Q : α → ρ → Prop) (v : ρ) (x : ExceptT δ (Program ρ φ) α) : Prop :=
  Blind apply hide x.run v ∧ ∀ a, (x.run.run apply v).1 = .ok a → Q a (x.run.run apply v).2

variable {apply hide}

theorem BlindTo.bind {P : α → ρ → Prop} {Q : β → ρ → Prop} {v : ρ}
    {x : ExceptT δ (Program ρ φ) α} {f : α → ExceptT δ (Program ρ φ) β}
    (h : BlindTo apply hide P v x) (hf : ∀ a w, P a w → BlindTo apply hide Q w (f a)) :
    BlindTo apply hide Q v (x >>= f) := by
  have hbind (w : ρ) : (x >>= f).run.run apply w =
      (ExceptT.bindCont f (x.run.run apply w).1).run apply (x.run.run apply w).2 :=
    Program.run_bind apply x.run _ w
  obtain ⟨hblind, hpost⟩ := h
  unfold BlindTo
  unfold Blind at hblind ⊢
  rw [hbind, hbind, hblind]
  cases hresult : (x.run.run apply v).1 with
  | ok a => exact hf a _ (hpost a hresult)
  | error e => exact ⟨rfl, fun _ hok => nomatch hok⟩

theorem BlindTo.mono {P Q : α → ρ → Prop} {v : ρ} {x : ExceptT δ (Program ρ φ) α}
    (h : BlindTo apply hide P v x) (hPQ : ∀ a w, P a w → Q a w) : BlindTo apply hide Q v x :=
  ⟨h.1, fun a ha => hPQ a _ (h.2 a ha)⟩

theorem Blind.agree {p : Program ρ φ α} {v w : ρ} (hv : Blind apply hide p v)
    (hw : Blind apply hide p w) (h : hide v = hide w) :
    (p.run apply v).1 = (p.run apply w).1 ∧
      hide (p.run apply v).2 = hide (p.run apply w).2 := by
  have hsame := hv.symm.trans ((congrArg (p.run apply) h).trans hw)
  exact Prod.mk.inj hsame

end Blind

/-- A client with the events it has performed and the states it performed them in. -/
structure Client (σ ρ φ κ α : Type) where
  caller : κ
  program : Program ρ φ α
  performed : List (σ × φ)

structure Shared (σ ρ φ κ α : Type) where
  state : σ
  clients : List (Client σ ρ φ κ α)

inductive ClientEvent (ε κ : Type) where
  | environment (e : ε)
  | call (caller : κ)
  | advance (i : Nat)

section System

variable {σ ε ρ φ κ α : Type} (S : TransitionSystem σ ε) (view : σ → ρ) (event : φ → ε)

def Client.advance (s : σ) (c : Client σ ρ φ κ α) : Client σ ρ φ κ α :=
  match c.program with
  | .done _ => c
  | .read resume => { c with program := resume (view s) }
  | .perform e resume =>
    { c with program := resume (view s), performed := c.performed ++ [(s, e)] }

def advanceState (s : σ) (c : Client σ ρ φ κ α) : σ :=
  match c.program with
  | .perform e _ => S.next s (event e)
  | _ => s

def CanAdvance (s : σ) (c : Client σ ρ φ κ α) : Prop :=
  match c.program with
  | .perform e _ => S.Enabled s (event e)
  | _ => True

variable (environment : ε → Prop) (program : κ → Program ρ φ α)

def clientSystem : TransitionSystem (Shared σ ρ φ κ α) (ClientEvent ε κ) where
  initial x := S.initial x.state ∧ x.clients = []
  Enabled x
    | .environment e => environment e ∧ S.Enabled x.state e
    | .call _ => True
    | .advance i => ∃ c, x.clients[i]? = some c ∧ CanAdvance S event x.state c
  next x
    | .environment e => { x with state := S.next x.state e }
    | .call caller => { x with clients := x.clients ++ [⟨caller, program caller, []⟩] }
    | .advance i =>
      match x.clients[i]? with
      | none => x
      | some c =>
        ⟨advanceState S event x.state c, x.clients.set i (c.advance view x.state)⟩

variable {S view event environment program}

theorem advance_execution {s : σ} {c : Client σ ρ φ κ α} (h : CanAdvance S event s c) :
    S.Execution s (advanceState S event s c) := by
  unfold CanAdvance at h
  unfold advanceState
  split at h
  · exact .single ⟨h, rfl⟩
  · exact .refl s

theorem step_execution {x y : Shared σ ρ φ κ α} {e : ClientEvent ε κ}
    (h : (clientSystem S view event environment program).Step x e y) :
    S.Execution x.state y.state := by
  obtain ⟨he, rfl⟩ := h
  cases e with
  | environment e => exact .single ⟨he.2, rfl⟩
  | call caller => exact .refl _
  | advance i =>
    obtain ⟨c, hc, hadvance⟩ := he
    simp only [clientSystem, hc]
    exact advance_execution hadvance

/-- What a client has performed stays on its record. -/
theorem step_performed {x y : Shared σ ρ φ κ α} {e : ClientEvent ε κ}
    (h : (clientSystem S view event environment program).Step x e y) :
    ∀ c ∈ x.clients, ∃ c' ∈ y.clients, ∀ p ∈ c.performed, p ∈ c'.performed := by
  obtain ⟨he, rfl⟩ := h
  intro c hc
  cases e with
  | environment e => exact ⟨c, hc, fun _ hp => hp⟩
  | call caller => exact ⟨c, List.mem_append_left _ hc, fun _ hp => hp⟩
  | advance i =>
    obtain ⟨own, hget, _⟩ := he
    simp only [clientSystem, hget]
    obtain ⟨j, hj, hcj⟩ := List.getElem_of_mem hc
    have hlength : j < (x.clients.set i (own.advance view x.state)).length := by
      rw [List.length_set]
      exact hj
    refine ⟨_, List.getElem_mem hlength, ?_⟩
    rw [List.getElem_set]
    split
    · rename_i hij
      subst hij
      have hown : own = c := by
        rw [List.getElem?_eq_getElem hj, hcj] at hget
        exact (Option.some.inj hget).symm
      rw [hown]
      intro p hp
      unfold Client.advance
      split
      · exact hp
      · exact hp
      · exact List.mem_append_left _ hp
    · rw [hcj]
      exact fun _ hp => hp

theorem reachable_shared {x : Shared σ ρ φ κ α}
    (h : (clientSystem S view event environment program).Reachable x) : S.Reachable x.state := by
  refine h.invariant (P := fun x => S.Reachable x.state) ?_ ?_
  · exact fun x hx => .initial hx.1
  · exact fun x e y hx hstep => hx.execution (step_execution hstep)

/-- A property of every client: it holds of a new client, the steps of others keep it, and so does
its own step. -/
theorem clients_invariant {P : σ → Client σ ρ φ κ α → Prop}
    (hnew : ∀ s caller, S.Reachable s → P s ⟨caller, program caller, []⟩)
    (hothers : ∀ s t c, S.Execution s t → P s c → P t c)
    (hown : ∀ s c, S.Reachable s → CanAdvance S event s c → P s c →
      P (advanceState S event s c) (c.advance view s))
    {x : Shared σ ρ φ κ α} (h : (clientSystem S view event environment program).Reachable x) :
    ∀ c ∈ x.clients, P x.state c := by
  refine h.invariant_of (P := fun x => ∀ c ∈ x.clients, P x.state c)
    (fun _ => reachable_shared) ?_ ?_
  · intro x hx c hc
    rw [hx.2] at hc
    cases hc
  · intro x e y hreachable hx hstep
    have hexecution := step_execution hstep
    obtain ⟨he, rfl⟩ := hstep
    cases e with
    | environment e => exact fun c hc => hothers _ _ c hexecution (hx c hc)
    | call caller =>
      intro c hc
      rcases List.mem_append.mp hc with hc | hc
      · exact hx c hc
      · rw [List.mem_singleton.mp hc]
        exact hnew _ caller hreachable
    | advance i =>
      obtain ⟨own, hget, hadvance⟩ := he
      have howned : own ∈ x.clients := List.mem_of_getElem? hget
      simp only [clientSystem, hget] at hexecution ⊢
      intro c hc
      rcases List.mem_or_eq_of_mem_set hc with hc | rfl
      · exact hothers _ _ c hexecution (hx c hc)
      · exact hown _ own hreachable hadvance (hx own howned)

/-- What a client has done so far was allowed to it when it did it. -/
structure Conducts (S : TransitionSystem σ ε) (event : φ → ε) (allowed : κ → σ → φ → Prop) (s : σ)
    (caller : κ) (p : σ × φ) : Prop where
  reachable : S.Reachable p.1
  enabled : S.Enabled p.1 (event p.2)
  permitted : allowed caller p.1 p.2
  past : S.Execution (S.next p.1 (event p.2)) s

/-- Clients whose programs perform allowed events only have performed allowed events only, in any
interleaving. -/
theorem performed_allowed {allowed : κ → σ → φ → Prop}
    (hprogram : ∀ s caller, S.Reachable s →
      Ensures S view event (allowed caller) (fun _ _ => True) s (program caller))
    {x : Shared σ ρ φ κ α} (h : (clientSystem S view event environment program).Reachable x) :
    ∀ c ∈ x.clients, ∀ p ∈ c.performed, Conducts S event allowed x.state c.caller p := by
  have hinvariant := clients_invariant (P := fun s c =>
      (∀ p ∈ c.performed, Conducts S event allowed s c.caller p) ∧
        Ensures S view event (allowed c.caller) (fun _ _ => True) s c.program) ?_ ?_ ?_ h
  · exact fun c hc => (hinvariant c hc).1
  · intro s caller hs
    exact ⟨fun p hp => absurd hp List.not_mem_nil, hprogram s caller hs⟩
  · rintro s t c ht ⟨hpast, hrest⟩
    refine ⟨?_, hrest.later (fun _ _ _ _ _ => trivial) ht⟩
    intro p hp
    obtain ⟨hreachable, henabled, hpermitted, hexecution⟩ := hpast p hp
    exact ⟨hreachable, henabled, hpermitted, hexecution.trans ht⟩
  · rintro s c hs hadvance ⟨hpast, hrest⟩
    have hexecution := advance_execution hadvance
    obtain ⟨caller, program, performed⟩ := c
    cases program with
    | done a => exact ⟨hpast, hrest⟩
    | read resume => exact ⟨hpast, hrest s (.refl s)⟩
    | perform e resume =>
      obtain ⟨hpermitted, hrest⟩ := hrest s (.refl s) hadvance
      refine ⟨?_, hrest⟩
      intro p hp
      rcases List.mem_append.mp hp with hp | hp
      · obtain ⟨hreachable, henabled, hallowed, hbefore⟩ := hpast p hp
        exact ⟨hreachable, henabled, hallowed, hbefore.trans hexecution⟩
      · rw [List.mem_singleton.mp hp]
        exact ⟨hs, hadvance, hpermitted, .refl _⟩

/-- A client that ended in failure has changed nothing, in any interleaving. -/
theorem failed_unchanged {unchanged : ρ → φ → Prop} {failed : α → Prop}
    (hprogram : ∀ caller, Clean unchanged failed (program caller))
    {x : Shared σ ρ φ κ α} (h : (clientSystem S view event environment program).Reachable x) :
    ∀ c ∈ x.clients, ∀ a, c.program = .done a → failed a →
      ∀ p ∈ c.performed, unchanged (view p.1) p.2 := by
  have hinvariant := clients_invariant (P := fun _ c =>
      ((∀ p ∈ c.performed, unchanged (view p.1) p.2) ∧ Clean unchanged failed c.program) ∨
        Settles failed c.program) ?_ (fun _ _ _ _ hc => hc) ?_ h
  · intro c hc a hdone hfailed
    rcases hinvariant c hc with ⟨hpast, _⟩ | hsettled
    · exact hpast
    · rw [hdone] at hsettled
      exact absurd hfailed hsettled
  · exact fun s caller _ => .inl ⟨fun p hp => absurd hp List.not_mem_nil, hprogram caller⟩
  · intro s c _ _ hc
    obtain ⟨caller, program, performed⟩ := c
    cases program with
    | done a => exact hc
    | read resume =>
      rcases hc with ⟨hpast, hclean⟩ | hsettled
      · exact .inl ⟨hpast, hclean (view s)⟩
      · exact .inr (hsettled (view s))
    | perform e resume =>
      rcases hc with ⟨hpast, hclean⟩ | hsettled
      · rcases hclean (view s) with ⟨hsame, hclean⟩ | hsettled
        · refine .inl ⟨?_, hclean⟩
          intro p hp
          rcases List.mem_append.mp hp with hp | hp
          · exact hpast p hp
          · rw [List.mem_singleton.mp hp]
            exact hsame
        · exact .inr hsettled
      · exact .inr (hsettled (view s))

end System

end ClientPrograms
