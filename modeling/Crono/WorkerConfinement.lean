import Crono.AttemptOutputs
import Crono.ExecutionGrants
import Crono.RunningAttempts
import Crono.WorkerControl

/-! What a worker can do is bounded by the subjects it may publish on. Every grant, completion and
output of a worker answers a message on a subject of that worker, and while nothing arrives on
its subjects, nothing that it holds is written but by a repair pass. -/
namespace WorkerConfinement

open RunDomain SqlTable ControlPlaneSchema RunStore ControlPlane StoreWrites WorkerControl
open ExecutionGrants AttemptOutputs RunningAttempts RunLifecycle RunCoupling WorkerPresence

variable {D : Decoders}

/-- A handled message, on a subject of the worker it names, carries the request. -/
def Asked (D : Decoders) (handled : List Message) (request : WorkerRequest) : Prop :=
  ∃ m ∈ handled, Published D m request

theorem Asked.append {handled later : List Message} {request : WorkerRequest}
    (h : Asked D handled request) : Asked D (handled ++ later) request := by
  obtain ⟨m, hm, hpublished⟩ := h
  exact ⟨m, List.mem_append_left later hm, hpublished⟩

theorem commanded_enabled {s : Server} {e : Event} {c : Command}
    (h : Commanded D s e (some c)) : ControlPlane.Enabled s.control c := by
  cases h with
  | server _ _ _ henabled => exact henabled
  | repair pass => trivial
  | request m request =>
    cases request with
    | claim r => trivial
    | renew r => trivial
    | complete r => trivial
    | output r => trivial

theorem commanded_next {s : Server} {e : Event} {c : Command} (h : Commanded D s e (some c)) :
    (WorkerControl.next D s e).control = ControlPlane.next s.control c := by
  cases h with
  | server _ _ _ _ hafter => exact hafter
  | repair pass _ _ _ hafter => exact hafter
  | request m request _ _ _ _ hafter => exact hafter

theorem commanded_idle {s : Server} {e : Event} (h : Commanded D s e none) :
    (WorkerControl.next D s e).control = s.control := by
  cases h with
  | idle hafter => exact hafter

theorem commanded_reconcile {s : Server} {e : Event} {pass : RepairPass}
    (h : Commanded D s e (some (.reconcile pass))) : ∃ locked now, e = .repair pass locked now := by
  generalize hc : Command.reconcile pass = c at h
  cases h with
  | server c' _ hserver =>
    rw [← hc] at hserver
    cases hserver
  | repair pass' locked now he =>
    cases hc
    exact ⟨locked, now, he⟩
  | request m request retryAt now => cases request <;> cases hc

theorem command_injective {request request' : WorkerRequest} {retryAt now retryAt' now' : Instant}
    (h : request.command retryAt now = request'.command retryAt' now') : request = request' := by
  cases request <;> cases request' <;> cases h <;> rfl

/-- A command that only a worker can ask for serves a message that carries its request. -/
theorem commanded_asked {s : Server} {e : Event} (request : WorkerRequest)
    (retryAt now : Instant) (h : Commanded D s e (some (request.command retryAt now))) :
    ∃ m, e.message = some m ∧ Published D m request := by
  generalize hc : request.command retryAt now = c at h
  have hserved : relayed c = true ∧ ∀ pass, c ≠ .reconcile pass := by
    rw [← hc]
    cases request <;> exact ⟨rfl, by simp [WorkerRequest.command]⟩
  cases h with
  | server _ _ hserver =>
    rw [hserver] at hserved
    cases hserved.1
  | repair pass => exact absurd rfl (hserved.2 pass)
  | request m asked retryAt' now' hm hpublished =>
    rw [command_injective hc]
    exact ⟨m, hm, hpublished⟩

theorem next_asked {s : Server} {e : Event} {request : WorkerRequest}
    (h : ∃ m, e.message = some m ∧ Published D m request) :
    Asked D (WorkerControl.next D s e).handled request := by
  obtain ⟨m, hm, hpublished⟩ := h
  refine ⟨m, List.mem_append_right s.handled ?_, hpublished⟩
  rw [hm]
  exact List.mem_singleton_self m

/-- The output of an Attempt that is not over yet. -/
def Shown (D : Decoders) (handled : List Message) (a : AttemptRow) : Prop :=
  outputOf a = blank a.id ∨ a.status = .running ∧
    ∃ r : OutputSnapshotRequest, Asked D handled (.output r) ∧ a.workerId = some r.workerId ∧
      outputOf a = ⟨r.attemptId, some r.stdoutTail, some r.stderrTail, r.sequence⟩

/-- What the store shows of a worker, and the messages it answers. -/
structure Attributed (D : Decoders) (s : Server) : Prop where
  grants : ∀ g ∈ s.control.grants, ∃ r : ClaimRequest, Asked D s.handled (.claim r) ∧
    g = ⟨r.runId, r.attemptId, r.workerId⟩
  completions : ∀ c ∈ s.control.completions, ∃ (r : CompletionRequest) (now : Instant),
    Asked D s.handled (.complete r) ∧ c = ⟨r.attemptId, r.workerId⟩ ∧
      ∃ a, a.id = r.attemptId ∧ a.workerId = some r.workerId ∧
        completedAttempt r now a ∈ s.control.store.runAttempts
  outputs : ∀ a ∈ s.control.store.runAttempts, a.status.isTerminal = false → Shown D s.handled a

theorem grants_attributed {s : Server} {e : Event} (hs : (WorkerControl.system D).Reachable s)
    (h : Attributed D s) {c : Command} (hc : Commanded D s e (some c)) {g : Grant}
    (hg : g ∈ (WorkerControl.next D s e).control.grants) :
    ∃ r : ClaimRequest, Asked D (WorkerControl.next D s e).handled (.claim r) ∧
      g = ⟨r.runId, r.attemptId, r.workerId⟩ := by
  have hconsistent := (reachable_invariant (control_reachable hs)).consistent
  rw [commanded_next hc] at hg
  rcases List.mem_append.mp hg with hold | hnew
  · obtain ⟨r, hasked, hsame⟩ := h.grants g hold
    exact ⟨r, hasked.append, hsame⟩
  · rcases grantedBy_cases hconsistent c with ⟨hnone, _⟩ | ⟨r, now, _, _, rfl, _, _, hone, _⟩
    · rw [hnone] at hnew
      cases hnew
    · rw [hone] at hnew
      refine ⟨r, next_asked (commanded_asked (.claim r) now now hc), ?_⟩
      exact List.mem_singleton.mp hnew

theorem settled_kept {s : State} (hk : KeysUnique s.store) {c : Command}
    (hc : ControlPlane.Enabled s c) {a : AttemptRow} (ha : a ∈ s.store.runAttempts)
    (hsettled : a.status.isTerminal = true) : a ∈ (transact s c).runAttempts := by
  obtain ⟨a', ha', hevolves⟩ := (transact_writes hk hc).evolves.attempts.of_mem ha
  rwa [hevolves.settled hsettled] at ha'

theorem completions_attributed {s : Server} {e : Event}
    (hs : (WorkerControl.system D).Reachable s) (h : Attributed D s) {c : Command}
    (hc : Commanded D s e (some c)) {done : Completion}
    (hdone : done ∈ (WorkerControl.next D s e).control.completions) :
    ∃ (r : CompletionRequest) (now : Instant),
      Asked D (WorkerControl.next D s e).handled (.complete r) ∧
      done = ⟨r.attemptId, r.workerId⟩ ∧ ∃ a, a.id = r.attemptId ∧ a.workerId = some r.workerId ∧
        completedAttempt r now a ∈ (WorkerControl.next D s e).control.store.runAttempts := by
  have hconsistent := (reachable_invariant (control_reachable hs)).consistent
  rw [commanded_next hc] at hdone ⊢
  rcases List.mem_append.mp hdone with hold | hnew
  · obtain ⟨r, now, hasked, hsame, a, hid, hworker, hrow⟩ := h.completions done hold
    refine ⟨r, now, hasked.append, hsame, a, hid, hworker, ?_⟩
    exact settled_kept hconsistent.keys (commanded_enabled hc) hrow (attemptStatus_terminal r)
  · rcases completedBy_cases hconsistent c with hnone |
      ⟨r, retryAt, now, a, rfl, _, hleased, hone, hrow⟩
    · rw [hnone] at hnew
      cases hnew
    · rw [hone] at hnew
      obtain ⟨hid, hworker, _, _⟩ := leased_iff.mp hleased
      refine ⟨r, now, next_asked (commanded_asked (.complete r) retryAt now hc),
        List.mem_singleton.mp hnew, a, hid, hworker, hrow⟩

theorem running_of_rank {status : AttemptStatus} (hopen : status.isTerminal = false)
    (hrank : 2 ≤ AttemptStatus.rank status) : status = .running := by
  cases status with
  | running => rfl
  | pendingDispatch => simp [AttemptStatus.rank] at hrank
  | queued => simp [AttemptStatus.rank] at hrank
  | succeeded | skipped | failed | dead | unknown => cases hopen

/-- An Attempt that is not over yet was not over before, and keeps the worker it runs under. -/
theorem open_origin {s : State} (hk : KeysUnique s.store) {c : Command}
    (hc : ControlPlane.Enabled s c) {a a' : AttemptRow} (ha : a ∈ s.store.runAttempts)
    (ha' : a' ∈ (transact s c).runAttempts) (hid : a'.id = a.id)
    (hopen : a'.status.isTerminal = false) :
    a.status.isTerminal = false ∧
      (a.status = .running → a'.status = .running ∧ a'.workerId = a.workerId) := by
  have hwrites := transact_writes hk hc
  have hevolves := hwrites.evolves.attempts.of_key (fun _ _ h => h.id)
    (hwrites.keysUnique hk).attempts ha ha' hid
  constructor
  · by_contra hsettled
    rw [Bool.not_eq_false] at hsettled
    rw [hevolves.settled hsettled, hsettled] at hopen
    cases hopen
  · intro hrunning
    have hrank : 2 ≤ AttemptStatus.rank a.status := by
      rw [hrunning]
      decide
    exact ⟨running_of_rank hopen (hrank.trans hevolves.progress), hevolves.worker hrank⟩

theorem Shown.later {handled later : List Message} {a a' : AttemptRow} (h : Shown D handled a)
    (houtput : outputOf a' = outputOf a)
    (hstays : a.status = .running → a'.status = .running ∧ a'.workerId = a.workerId) :
    Shown D (handled ++ later) a' := by
  have hid : a'.id = a.id := congrArg AttemptOutput.attemptId houtput
  rcases h with hblank | ⟨hrunning, r, hasked, hworker, hshows⟩
  · left
    rw [houtput, hblank, hid]
  · obtain ⟨hrunning', hworker'⟩ := hstays hrunning
    exact .inr ⟨hrunning', r, hasked.append, hworker'.trans hworker, houtput.trans hshows⟩

theorem outputs_attributed {s : Server} {e : Event} (hs : (WorkerControl.system D).Reachable s)
    (h : Attributed D s) {c : Command} (hc : Commanded D s e (some c)) {a' : AttemptRow}
    (ha' : a' ∈ (WorkerControl.next D s e).control.store.runAttempts)
    (hopen : a'.status.isTerminal = false) : Shown D (WorkerControl.next D s e).handled a' := by
  have hk := reachable_keysUnique (control_reachable hs)
  have henabled := commanded_enabled hc
  rw [commanded_next hc] at ha'
  -- the output of an Attempt that was there before, unless the command writes it
  have hlater {a : AttemptRow} (ha : a ∈ s.control.store.runAttempts)
      (houtput : outputOf a' = outputOf a) : Shown D (WorkerControl.next D s e).handled a' := by
    have hid : a'.id = a.id := congrArg AttemptOutput.attemptId houtput
    obtain ⟨hopen, hstays⟩ := open_origin hk henabled ha ha' hid hopen
    exact (h.outputs a ha hopen).later houtput hstays
  by_cases hreports : reports c = true
  · cases c with
    | recordAttemptOutput r now =>
      rcases recordAttemptOutput_spec hk.attempts r now with ⟨_, hsame⟩ | ⟨_, _, hwritten⟩
      · have hold : a' ∈ s.control.store.runAttempts := by
          rw [← hsame]
          exact ha'
        exact hlater hold rfl
      · have hrow : a' ∈ (recordAttemptOutput r now s.control.store).2.runAttempts := ha'
        rw [hwritten] at hrow
        rcases update_cases hrow with ⟨hold, _⟩ | ⟨a, ha, hreplaced, rfl⟩
        · exact hlater hold rfl
        · have hleased := leased_iff.mp (Bool.and_eq_true_iff.mp hreplaced).1
          refine .inr ⟨hleased.2.2.1, r, next_asked (commanded_asked (.output r) now now hc),
            hleased.2.1, ?_⟩
          rw [← hleased.1]
          rfl
    | completeAttempt r retryAt now =>
      obtain ⟨a, ha, _, _, hsame | hterminal⟩ := completeAttempt_origin ha'
      · exact hlater (hsame ▸ ha) rfl
      · rw [hterminal] at hopen
        cases hopen
    | _ => cases hreports
  · rw [Bool.not_eq_true] at hreports
    have hnodup := ((transact_writes hk henabled).keysUnique hk).attempts
    rcases output_origin hreports hnodup ha' with ⟨a, ha, houtput⟩ | ⟨hblank, _⟩
    · exact hlater ha houtput
    · exact .inl hblank

theorem Attributed.idle {s : Server} {e : Event} (h : Attributed D s)
    (hc : Commanded D s e none) : Attributed D (WorkerControl.next D s e) := by
  have hidle := commanded_idle hc
  constructor
  · intro g hg
    rw [hidle] at hg
    obtain ⟨r, hasked, hsame⟩ := h.grants g hg
    exact ⟨r, hasked.append, hsame⟩
  · intro done hdone
    rw [hidle] at hdone ⊢
    obtain ⟨r, now, hasked, hrow⟩ := h.completions done hdone
    exact ⟨r, now, hasked.append, hrow⟩
  · intro a ha hopen
    rw [hidle] at ha
    exact (h.outputs a ha hopen).later rfl fun hrunning => ⟨hrunning, rfl⟩

/-- In every reachable state a grant answers a claim that came on a subject of its worker, a
completion shows what its worker reported on such a subject, and an Attempt that is still open
shows no output but what the worker it runs under published. -/
theorem effects_attributed {s : Server} (h : (WorkerControl.system D).Reachable s) :
    Attributed D s := by
  refine h.invariant_of (Q := (WorkerControl.system D).Reachable) (fun _ hs => hs) ?_ ?_
  · rintro s ⟨⟨catalog, schedules, _, _, hinitial⟩, _⟩
    constructor <;> rw [hinitial] <;> simp [emptyStore]
  · rintro s e _ hs hattributed ⟨henabled, rfl⟩
    obtain ⟨o, hc⟩ := commanded (D := D) henabled
    cases o with
    | some c =>
      exact ⟨fun g hg => grants_attributed hs hattributed hc hg,
        fun done hdone => completions_attributed hs hattributed hc hdone,
        fun a ha hopen => outputs_attributed hs hattributed hc ha hopen⟩
    | none => exact hattributed.idle hc

def demoOutput : OutputSnapshotRequest := ⟨7, "worker", 1, "out", ""⟩

def demoCompletion : CompletionRequest := ⟨7, "worker", true, false, some 0, "out", "", none⟩

def workDecoders : Decoders where
  claim := fun _ => some demoClaimRequest
  lease := fun _ => none
  completion := fun _ => some demoCompletion
  output := fun _ => some demoOutput
  heartbeat := fun _ => some demoHeartbeat

def demoClaimMessage : Message :=
  ⟨"crono.worker.control.claim.worker", some "_INBOX.1",
    ascii ("\x7b\"run_id\":\"00000000-0000-0000-0000-000000000006\"," ++
      "\"attempt_id\":\"00000000-0000-0000-0000-000000000007\"," ++
      "\"queue_id\":\"00000000-0000-0000-0000-000000000001\",\"worker_id\":\"worker\"\x7d")⟩

def demoOutputMessage : Message :=
  ⟨"crono.worker.output.worker", some "_INBOX.2",
    ascii ("\x7b\"attempt_id\":\"00000000-0000-0000-0000-000000000007\"," ++
      "\"worker_id\":\"worker\",\"sequence\":1,\"stdout_tail\":\"out\"," ++
      "\"stderr_tail\":\"\"\x7d")⟩

/-- The worker claims the Attempt and shows its output; its heartbeat is not written yet. -/
def demoWork : List Event :=
  [.server demoCreate, .server demoClaimOutbox, .server demoMarkPublished,
    .control demoClaimMessage 0 0, .output demoOutputMessage false 1,
    .presence demoHeartbeatMessage]

def demoWorked : Server := (WorkerControl.system workDecoders).run demoServer demoWork

theorem demoWorked_reachable : (WorkerControl.system workDecoders).Reachable demoWorked := by
  have hclaim : subscribed controlPattern demoClaimMessage.subject = true := by decide +kernel
  have houtput : subscribed outputPattern demoOutputMessage.subject = true := by decide +kernel
  have hpresence : subscribed presencePattern demoHeartbeatMessage.subject = true := by
    decide +kernel
  refine ⟨demoServer, ⟨demoInitial_initial, rfl, rfl, rfl, rfl⟩, .of_admits ?_⟩
  exact ⟨⟨rfl, trivial, trivial⟩, ⟨rfl, trivial, trivial⟩,
    ⟨rfl, List.mem_singleton.mpr rfl, trivial⟩, hclaim, houtput, hpresence, trivial⟩

theorem effects_attributed_demo :
    demoWorked.control.grants = [⟨6, 7, "worker"⟩] ∧
      demoWorked.control.store.runAttempts.map outputOf = [⟨7, some "out", some "", 1⟩] ∧
      Attributed workDecoders demoWorked :=
  ⟨by decide +kernel, by decide +kernel, effects_attributed demoWorked_reachable⟩

def Silent (workerId : String) (e : Event) : Prop :=
  ∀ m, e.message = some m → ¬ SubjectOf workerId m.subject

/-- The system while nothing arrives on the subjects of one worker. -/
def silence (D : Decoders) (workerId : String) : TransitionSystem Server Event :=
  (WorkerControl.system D).restrict fun _ e => Silent workerId e

structure Spares (workerId : String) (s : State) (c : Command) : Prop where
  grants : ∀ g ∈ grantedBy s c, g.workerId ≠ workerId
  completions : ∀ done ∈ completedBy s c, done.workerId ≠ workerId
  leases : leaseholder c ≠ some workerId

theorem silent_spares {workerId : String} {s : Server} {e : Event}
    (hs : (WorkerControl.system D).Reachable s) (hsilent : Silent workerId e) {c : Command}
    (hc : Commanded D s e (some c)) : Spares workerId s.control c := by
  have hconsistent := (reachable_invariant (control_reachable hs)).consistent
  have hother (request : WorkerRequest) (retryAt now : Instant)
      (h : c = request.command retryAt now) : request.worker ≠ workerId := by
    rw [h] at hc
    obtain ⟨m, hm, hpublished⟩ := commanded_asked request retryAt now hc
    rintro rfl
    exact hsilent m hm hpublished.subjectOf
  constructor
  · intro g hg
    rcases grantedBy_cases hconsistent c with ⟨hnone, _⟩ | ⟨r, now, _, _, rfl, _, _, hone, _⟩
    · rw [hnone] at hg
      cases hg
    · rw [hone] at hg
      rw [List.mem_singleton.mp hg]
      exact hother (.claim r) now now rfl
  · intro done hdone
    rcases completedBy_cases hconsistent c with hnone | ⟨r, retryAt, now, _, rfl, _, _, hone, _⟩
    · rw [hnone] at hdone
      cases hdone
    · rw [hone] at hdone
      rw [List.mem_singleton.mp hdone]
      exact hother (.complete r) retryAt now rfl
  · intro hholds
    cases c with
    | renewLease r now => exact hother (.renew r) now now rfl (Option.some.inj hholds)
    | recordAttemptOutput r now => exact hother (.output r) now now rfl (Option.some.inj hholds)
    | completeAttempt r retryAt now =>
      exact hother (.complete r) retryAt now rfl (Option.some.inj hholds)
    | _ => cases hholds

/-- A repair pass of the events found the lease of the Attempt run out. -/
def Lapsed (events : List Event) (a : AttemptRow) (attempts : List AttemptRow) : Prop :=
  ∃ pass locked now retry, .repair pass locked now ∈ events ∧ Overdue pass.leasesAt a ∧
    endedAttempt retry pass.leasesAt a ∈ attempts

/-- A repair pass of the events found the row without a heartbeat for seven days. -/
def Expired (events : List Event) (row : PresenceRow) : Prop :=
  ∃ pass locked now, .repair pass locked now ∈ events ∧ expiredPresence now row = true

/-- The events write a heartbeat of the worker that the server had checked in `s`. -/
def Late (workerId : String) (s : Server) (events : List Event)
    (request : WorkerHeartbeatRequest) (now : Instant) : Prop :=
  .heartbeat request now ∈ events ∧ request ∈ s.checked ∧ request.workerId = workerId

theorem Lapsed.mono {events more : List Event} {a : AttemptRow} {attempts : List AttemptRow}
    (h : Lapsed events a attempts) (hmore : events ⊆ more) : Lapsed more a attempts := by
  obtain ⟨pass, locked, now, retry, hpass, hended⟩ := h
  exact ⟨pass, locked, now, retry, hmore hpass, hended⟩

theorem Expired.mono {events more : List Event} {row : PresenceRow} (h : Expired events row)
    (hmore : events ⊆ more) : Expired more row := by
  obtain ⟨pass, locked, now, hpass, hexpired⟩ := h
  exact ⟨pass, locked, now, hmore hpass, hexpired⟩

theorem Late.mono {workerId : String} {s : Server} {events more : List Event}
    {request : WorkerHeartbeatRequest} {now : Instant} (h : Late workerId s events request now)
    (hmore : events ⊆ more) : Late workerId s more request now :=
  ⟨hmore h.1, h.2⟩

/-- What a worker holds, from one state to the state after the events. -/
structure Untouched (workerId : String) (s : Server) (events : List Event) (t : Server) :
    Prop where
  grants : t.control.grants.filter (fun g => g.workerId = workerId) =
    s.control.grants.filter fun g => g.workerId = workerId
  completions : t.control.completions.filter (fun done => done.workerId = workerId) =
    s.control.completions.filter fun done => done.workerId = workerId
  leases : ∀ a ∈ s.control.store.runAttempts, a.workerId = some workerId → a.status = .running →
    a ∈ t.control.store.runAttempts ∨ Lapsed events a t.control.store.runAttempts
  present : ∀ row ∈ s.presence, row.workerId = workerId →
    row ∈ t.presence ∨ Expired events row ∨ ∃ request now, Late workerId s events request now
  presence : ∀ row ∈ t.presence, row.workerId = workerId →
    row ∈ s.presence ∨ ∃ request now, Late workerId s events request now ∧
      row = { insertedRow request now with startedAt := row.startedAt }
  checked : ∀ request ∈ t.checked, request.workerId = workerId → request ∈ s.checked

theorem Untouched.refl (workerId : String) (s : Server) : Untouched workerId s [] s where
  grants := rfl
  completions := rfl
  leases := fun _ ha _ _ => .inl ha
  present := fun _ hrow _ => .inl hrow
  presence := fun _ hrow _ => .inl hrow
  checked := fun _ hrequest _ => hrequest

theorem next_checked {workerId : String} {s : Server} {e : Event}
    (henabled : WorkerControl.Enabled s e) (hsilent : Silent workerId e)
    {request : WorkerHeartbeatRequest} (hworker : request.workerId = workerId)
    (hrequest : request ∈ (WorkerControl.next D s e).checked) : request ∈ s.checked := by
  cases e with
  | server c => exact hrequest
  | repair pass locked now => exact hrequest
  | control m retryAt now => exact hrequest
  | output m busy now => exact hrequest
  | heartbeat written now => exact List.mem_of_mem_erase hrequest
  | presence m =>
    rcases List.mem_append.mp hrequest with hold | hnew
    · exact hold
    · rw [← hworker] at hsilent
      exact absurd (.presence (lookedUp_published (D := D) henabled hnew).1) (hsilent m rfl)

/-- Only a pass that finds it too old and a heartbeat of its worker take a row away. -/
theorem next_present {s : Server} {e : Event}
    (hworkers : (s.presence.map PresenceRow.workerId).Nodup)
    (henabled : WorkerControl.Enabled s e) {row : PresenceRow} (hrow : row ∈ s.presence) :
    row ∈ (WorkerControl.next D s e).presence ∨ Expired [e] row ∨
      ∃ request now, Late row.workerId s [e] request now := by
  cases e with
  | server c => exact .inl hrow
  | control m retryAt now => exact .inl hrow
  | output m busy now => exact .inl hrow
  | presence m => exact .inl hrow
  | repair pass locked now =>
    by_cases hremoved : row.workerId ∈ s.removals pass locked now
    · unfold Server.removals at hremoved
      split at hremoved
      · obtain ⟨old, hold, hsame⟩ := List.mem_map.mp hremoved
        obtain ⟨hmem, hexpired⟩ := mem_selectBatch hold
        rw [row_unique hworkers hmem hrow hsame] at hexpired
        exact .inr (.inl ⟨pass, locked, now, List.mem_singleton_self _, hexpired⟩)
      · cases hremoved
    · exact .inl (List.mem_filter.mpr ⟨hrow, by simpa using hremoved⟩)
  | heartbeat request now =>
    by_cases hworker : request.workerId = row.workerId
    · exact .inr (.inr ⟨request, now, List.mem_singleton_self _, henabled, hworker⟩)
    · left
      have hrows : (WorkerControl.next D s (.heartbeat request now)).presence =
          (s.beat request now).2 := rfl
      rw [hrows]
      cases hbeat : (s.beat request now).1 with
      | error error =>
        have hsame : (s.beat request now).2 = s.presence := recordWorkerHeartbeat_error hbeat
        rwa [hsame]
      | ok _ =>
        have hwritten : (s.beat request now).2 = upserted request now s.presence :=
          (recordWorkerHeartbeat_ok (Prod.ext hbeat rfl)).1
        rw [hwritten]
        exact upserted_other hrow hworker

/-- A row that was not there before is what a heartbeat of its worker wrote. -/
theorem next_written {s : Server} {e : Event} (henabled : WorkerControl.Enabled s e)
    {row : PresenceRow} (hrow : row ∈ (WorkerControl.next D s e).presence) :
    row ∈ s.presence ∨ ∃ request now, Late row.workerId s [e] request now ∧
      row = { insertedRow request now with startedAt := row.startedAt } := by
  cases e with
  | server c => exact .inl hrow
  | control m retryAt now => exact .inl hrow
  | output m busy now => exact .inl hrow
  | presence m => exact .inl hrow
  | repair pass locked now => exact .inl (List.mem_of_mem_filter hrow)
  | heartbeat request now =>
    have hrows : (WorkerControl.next D s (.heartbeat request now)).presence =
        (s.beat request now).2 := rfl
    rw [hrows] at hrow
    cases hbeat : (s.beat request now).1 with
    | error error =>
      have hsame : (s.beat request now).2 = s.presence := recordWorkerHeartbeat_error hbeat
      rw [hsame] at hrow
      exact .inl hrow
    | ok _ =>
      have hwritten : (s.beat request now).2 = upserted request now s.presence :=
        (recordWorkerHeartbeat_ok (Prod.ext hbeat rfl)).1
      rw [hwritten] at hrow
      rcases upserted_cases hrow with ⟨hold, _⟩ | ⟨old, _, _, rfl⟩ | ⟨_, rfl⟩
      · exact .inl hold
      · exact .inr ⟨request, now, ⟨List.mem_singleton_self _, henabled, rfl⟩, rfl⟩
      · exact .inr ⟨request, now, ⟨List.mem_singleton_self _, henabled, rfl⟩, rfl⟩

/-- An Attempt that is over, or that runs under a worker that says nothing, through one event. -/
theorem next_leases {workerId : String} {s : Server} {e : Event}
    (hs : (WorkerControl.system D).Reachable s) (henabled : WorkerControl.Enabled s e)
    (hsilent : Silent workerId e) {a : AttemptRow} (ha : a ∈ s.control.store.runAttempts) :
    (a.status.isTerminal = true → a ∈ (WorkerControl.next D s e).control.store.runAttempts) ∧
      (a.workerId = some workerId → a.status = .running →
        a ∈ (WorkerControl.next D s e).control.store.runAttempts ∨
          Lapsed [e] a (WorkerControl.next D s e).control.store.runAttempts) := by
  have hk := reachable_keysUnique (control_reachable hs)
  obtain ⟨o, hc⟩ := commanded (D := D) henabled
  cases o with
  | none =>
    rw [commanded_idle hc]
    exact ⟨fun _ => ha, fun _ _ => .inl ha⟩
  | some c =>
    rw [commanded_next hc]
    refine ⟨settled_kept hk (commanded_enabled hc) ha, fun hworker hrunning => ?_⟩
    cases transact_running hk c ha hrunning with
    | kept hkept => exact .inl hkept
    | reported holder hholds hown =>
      rw [hworker] at hown
      rw [Option.some.inj hown] at hsilent
      exact absurd hholds (silent_spares hs hsilent hc).leases
    | ended pass retry hc' hdue hended =>
      obtain ⟨locked, now, hpass⟩ := commanded_reconcile (hc' ▸ hc)
      exact .inr ⟨pass, locked, now, retry, List.mem_singleton.mpr hpass.symm, hdue, hended⟩

theorem next_logs {workerId : String} {s : Server} {e : Event}
    (hs : (WorkerControl.system D).Reachable s) (henabled : WorkerControl.Enabled s e)
    (hsilent : Silent workerId e) :
    (WorkerControl.next D s e).control.grants.filter (fun g => g.workerId = workerId) =
        s.control.grants.filter (fun g => g.workerId = workerId) ∧
      (WorkerControl.next D s e).control.completions.filter (fun done => done.workerId = workerId) =
        s.control.completions.filter fun done => done.workerId = workerId := by
  obtain ⟨o, hc⟩ := commanded (D := D) henabled
  cases o with
  | none =>
    rw [commanded_idle hc]
    exact ⟨rfl, rfl⟩
  | some c =>
    have hspares := silent_spares hs hsilent hc
    have hgrants : (grantedBy s.control c).filter (fun g => g.workerId = workerId) = [] := by
      simpa using hspares.grants
    have hcompletions :
        (completedBy s.control c).filter (fun done => done.workerId = workerId) = [] := by
      simpa using hspares.completions
    rw [commanded_next hc]
    constructor
    · rw [ControlPlane.next, List.filter_append, hgrants, List.append_nil]
    · rw [ControlPlane.next, List.filter_append, hcompletions, List.append_nil]

theorem Untouched.next {workerId : String} {s t : Server} {events : List Event} {e : Event}
    (ht : (WorkerControl.system D).Reachable t) (henabled : WorkerControl.Enabled t e)
    (hsilent : Silent workerId e) (h : Untouched workerId s events t) :
    Untouched workerId s (events ++ [e]) (WorkerControl.next D t e) := by
  obtain ⟨hgrants, hcompletions⟩ := next_logs ht henabled hsilent
  have hworkers := (reachable_presenceKept ht).presence.workers
  have hearlier : events ⊆ events ++ [e] := List.subset_append_left events [e]
  -- a heartbeat that the event writes was checked before the silence
  have hlate {request : WorkerHeartbeatRequest} {now : Instant}
      (hlate : Late workerId t [e] request now) : Late workerId s (events ++ [e]) request now :=
    ⟨List.mem_append_right events hlate.1, h.checked request hlate.2.1 hlate.2.2, hlate.2.2⟩
  refine ⟨hgrants.trans h.grants, hcompletions.trans h.completions, ?_, ?_, ?_, ?_⟩
  · intro a ha hworker hrunning
    rcases h.leases a ha hworker hrunning with hkept | hlapsed
    · rcases (next_leases ht henabled hsilent hkept).2 hworker hrunning with hkept | hlapsed
      · exact .inl hkept
      · exact .inr (hlapsed.mono (List.subset_append_right events [e]))
    · obtain ⟨pass, locked, now, retry, hpass, hdue, hended⟩ := hlapsed
      refine .inr ⟨pass, locked, now, retry, hearlier hpass, hdue, ?_⟩
      refine (next_leases ht henabled hsilent hended).1 ?_
      cases retry <;> rfl
  · intro row hrow hworker
    rcases h.present row hrow hworker with hkept | hexpired | ⟨request, now, hwritten⟩
    · rcases next_present hworkers henabled hkept with hkept | hexpired | ⟨request, now, hwritten⟩
      · exact .inl hkept
      · exact .inr (.inl (hexpired.mono (List.subset_append_right events [e])))
      · rw [hworker] at hwritten
        exact .inr (.inr ⟨request, now, hlate hwritten⟩)
    · exact .inr (.inl (hexpired.mono hearlier))
    · exact .inr (.inr ⟨request, now, hwritten.mono hearlier⟩)
  · intro row hrow hworker
    rcases next_written henabled hrow with hold | ⟨request, now, hwritten, hsays⟩
    · rcases h.presence row hold hworker with hold | ⟨request, now, hwritten, hsays⟩
      · exact .inl hold
      · exact .inr ⟨request, now, hwritten.mono hearlier, hsays⟩
    · rw [hworker] at hwritten
      exact .inr ⟨request, now, hlate hwritten, hsays⟩
  · intro request hrequest hworker
    exact h.checked request (next_checked henabled hsilent hworker hrequest) hworker

theorem silence_untouched {workerId : String} {s : Server}
    (hs : (WorkerControl.system D).Reachable s) {events : List Event}
    (h : (silence D workerId).Admits s events) :
    Untouched workerId s events ((silence D workerId).run s events) := by
  refine h.invariant (P := Untouched workerId s) (.refl workerId s) ?_
  intro events e t hrun henabled huntouched
  exact huntouched.next (hs.execution hrun.of_restrict) henabled.1 henabled.2

/-- While nothing arrives on the subjects of a worker, whatever the other workers send, the
servers do and the repair passes find: it is granted nothing and completes nothing; an Attempt it
runs stays as it is, until a repair pass finds its lease run out and ends it; no other Attempt
comes to run under it; and its presence row is written by no heartbeat but one that had come
before, and removed only by a repair pass that finds it seven days old. -/
theorem silent_worker_untouched {workerId : String} {s : Server}
    (hs : (WorkerControl.system D).Reachable s) {events : List Event}
    (h : (silence D workerId).Admits s events) :
    Untouched workerId s events ((silence D workerId).run s events) ∧
      ∀ a ∈ ((silence D workerId).run s events).control.store.runAttempts,
        a.workerId = some workerId → a.status = .running → a ∈ s.control.store.runAttempts := by
  have huntouched := silence_untouched hs h
  have hrun := (TransitionSystem.Execution.of_admits h).of_restrict
  generalize (silence D workerId).run s events = t at huntouched hrun ⊢
  have ht := hs.execution hrun
  refine ⟨huntouched, fun a' ha' hworker hrunning => ?_⟩
  -- its grant is older than the silence
  obtain ⟨g, hg, hattempt, _, hholder⟩ :=
    (reachable_grantLog (control_reachable ht)).running a' ha' hrunning
  have hgranted : g ∈ s.control.grants.filter fun g => g.workerId = workerId := by
    rw [← huntouched.grants, List.mem_filter]
    rw [hworker] at hholder
    exact ⟨hg, by simpa using hholder⟩
  obtain ⟨a, ha, hid, _, hsame, hrank⟩ :=
    (reachable_grantLog (control_reachable hs)).granted g (List.mem_of_mem_filter hgranted)
  have hattempts := (reachable_keysUnique (control_reachable ht)).attempts
  have hevolves := (execution_evolves (control_reachable hs)
    ((projection D).execution hrun)).attempts.of_key (fun _ _ h => h.id) hattempts ha ha'
    (hattempt.symm.trans hid.symm)
  have hopen : a.status.isTerminal = false := by
    by_contra hsettled
    rw [Bool.not_eq_false] at hsettled
    rw [hevolves.settled hsettled] at hrunning
    rw [hrunning] at hsettled
    cases hsettled
  have hheld : a.workerId = some workerId := by
    rw [← hworker]
    exact (hevolves.worker hrank).symm
  rcases huntouched.leases a ha hheld (running_of_rank hopen hrank) with
    hkept | ⟨pass, locked, now, retry, _, _, hended⟩
  · rwa [← row_unique hattempts hkept ha' hevolves.id.symm]
  · have hsame : endedAttempt retry pass.leasesAt a = a' :=
      row_unique hattempts hended ha' hevolves.id.symm
    rw [← hsame] at hrunning
    cases retry <;> cases hrunning

/-- Another worker reports the Attempt of the first one as completed. -/
def demoForgedMessage : Message :=
  ⟨"crono.worker.control.complete.other", some "_INBOX.3",
    ascii ("\x7b\"attempt_id\":\"00000000-0000-0000-0000-000000000007\"," ++
      "\"worker_id\":\"worker\",\"succeeded\":true,\"skipped\":false,\"exit_code\":0," ++
      "\"stdout_tail\":\"out\",\"stderr_tail\":\"\",\"error\":null\x7d")⟩

def demoLatePass : RepairPass :=
  ⟨10, fun _ => false, fun _ => false, fun _ => false, fun _ => ⟨30, 31⟩, fun _ => ⟨32, 33⟩,
    seconds 691200, seconds 691200, seconds 691200, seconds 691200⟩

/-- Another worker forges a completion and the heartbeat that waits is written; then a repair
pass comes late. -/
def demoSilence : List Event :=
  [.control demoForgedMessage 2 2, .heartbeat demoHeartbeat (seconds 5),
    .repair demoLatePass (fun _ => false) (seconds 691200)]

theorem demoForgedMessage_other : ¬ SubjectOf "worker" demoForgedMessage.subject := by
  have htokens : subjectTokens demoForgedMessage.subject =
      ["crono", "worker", "control", "complete", "other"] := by decide +kernel
  intro hown
  cases hown with
  | control operation hmine =>
    rw [htokens] at hmine
    simp at hmine
  | output hmine =>
    rw [htokens] at hmine
    simp at hmine
  | presence hmine =>
    rw [htokens] at hmine
    simp at hmine

theorem demoSilence_admitted : (silence workDecoders "worker").Admits demoWorked demoSilence := by
  have hsubject : subscribed controlPattern demoForgedMessage.subject = true := by decide +kernel
  have hchecked : demoHeartbeat ∈ demoWorked.checked := by decide +kernel
  refine ⟨⟨hsubject, ?_⟩, ⟨hchecked, ?_⟩, ⟨trivial, ?_⟩, trivial⟩
  · rintro m hm
    cases hm
    exact demoForgedMessage_other
  · rintro m hm
    cases hm
  · rintro m hm
    cases hm

theorem silent_worker_untouched_demo :
    demoWorked.control.store.runAttempts.map AttemptRow.status = [.running] ∧
      ((silence workDecoders "worker").run demoWorked
        demoSilence).control.store.runAttempts.map AttemptRow.status = [.failed, .pendingDispatch] ∧
      ((silence workDecoders "worker").run demoWorked demoSilence).presence = [] ∧
      Untouched "worker" demoWorked demoSilence
        ((silence workDecoders "worker").run demoWorked demoSilence) :=
  ⟨by decide +kernel, by decide +kernel, by decide +kernel,
    (silent_worker_untouched demoWorked_reachable demoSilence_admitted).1⟩

end WorkerConfinement
