import Crono.DispatchDelivery

/-! Routing of dispatches. Every producer of an Attempt takes the Queue from another place; the
outbox row, the message and the snapshot of a Run nevertheless name one Queue, so that no check
on the way ever turns a message away. -/
namespace DispatchRouting

open RunDomain SqlTable ControlPlaneSchema RunStore ControlPlane StoreWrites RunLifecycle
open RunCoupling DispatchNetwork DispatchDelivery

/-- `format!("crono.dispatch.{queue_id}")`, over the text of an id. -/
def subjectText (text : Uuid → String) (subject : DispatchSubject) : String :=
  "crono.dispatch." ++ text subject.queueId

/-- Messages and deliveries carry an outbox row, over the subject of its Queue. -/
structure Routed (net : Network) : Prop where
  control : ControlPlane.Reachable net.control
  confirmed : ∀ c ∈ net.confirmed, (c.owner, c.record) ∈ net.control.issued
  messages : ∀ m ∈ net.stream.messages, Named net.control.store m
  deliveries : ∀ d ∈ net.deliveries, Named net.control.store d.message ∧
    d.queueId = d.message.subject.queueId

theorem Routed.enabled {net : Network} (h : Routed net) {e : Event}
    (he : DispatchNetwork.Enabled net e) {c : Command} (hc : e.command = some c) :
    ControlPlane.Enabled net.control c := by
  cases e with
  | control c' =>
    cases hc
    exact he.2
  | markPublished confirmation now =>
    cases hc
    exact h.confirmed confirmation he
  | claim | claimUnanswered | complete | completeUnanswered =>
    cases hc
    trivial
  | _ => cases hc

theorem Routed.control_after {net : Network} (h : Routed net) {e : Event}
    (he : DispatchNetwork.Enabled net e) :
    ControlPlane.Reachable (net.controlAfter e) ∧
      StoreEvolves net.control.store (net.controlAfter e).store ∧
      ∀ entry ∈ net.control.issued, entry ∈ (net.controlAfter e).issued := by
  unfold Network.controlAfter
  cases hc : e.command with
  | none => exact ⟨h.control, .refl _, fun _ hentry => hentry⟩
  | some c =>
    have hstep : ControlPlane.Step net.control c (ControlPlane.next net.control c) :=
      ⟨h.enabled he hc, rfl⟩
    exact ⟨h.control.tail hstep, (step_writes h.control hstep).evolves,
      fun _ hentry => List.mem_append_left _ hentry⟩

theorem mem_publish {stream : Stream} {record : OutboxRecord} {m : Message}
    (h : m ∈ (stream.publish record).2.messages) :
    m ∈ stream.messages ∨ m.subject = record.subject ∧ m.envelope = record.payload := by
  rcases stream.publish_cases record with ⟨hsame, _⟩ | hstored
  · exact .inl (hsame ▸ h)
  · rw [hstored] at h
    rcases List.mem_append.mp h with h | h
    · exact .inl h
    · rw [List.mem_singleton.mp h]
      exact .inr ⟨rfl, rfl⟩

/-- A message of the stream was there, or carries a record a dispatcher was handed. -/
theorem message_origin {net : Network} {e : Event} (he : DispatchNetwork.Enabled net e)
    {m : Message} (h : m ∈ (net.streamAfter e).messages) :
    m ∈ net.stream.messages ∨ ∃ owner record, (owner, record) ∈ net.control.issued ∧
      m.subject = record.subject ∧ m.envelope = record.payload := by
  cases e with
  | publish owner record | publishUnconfirmed owner record =>
    exact (mem_publish h).imp id fun hsame => ⟨owner, record, he, hsame⟩
  | ack d => exact .inl (List.mem_filter.mp h).1
  | _ => exact .inl h

/-- A delivery was there, perhaps with less progress, or takes a message of its Queue. -/
theorem delivery_origin {net : Network} {e : Event} (he : DispatchNetwork.Enabled net e)
    {d' : Delivery} (h : d' ∈ net.deliveriesAfter e) :
    (∃ d ∈ net.deliveries, d'.message = d.message ∧ d'.queueId = d.queueId) ∨
      d'.message ∈ net.stream.messages ∧ d'.queueId = d'.message.subject.queueId := by
  have hold (hmem : d' ∈ net.deliveries) : ∃ d ∈ net.deliveries, d'.message = d.message ∧
      d'.queueId = d.queueId := ⟨d', hmem, rfl, rfl⟩
  cases e with
  | deliver workerId queueId message =>
    rcases List.mem_cons.mp h with rfl | h
    · exact .inr ⟨he.1, he.2.symm⟩
    · exact .inl (hold h)
  | claim d now =>
    rcases List.mem_append.mp h with h | h
    · exact .inl ⟨d, he.1, Delivery.answered_same h⟩
    · exact .inl (hold (List.mem_of_mem_erase h))
  | complete d request retryAt now =>
    rcases List.mem_append.mp h with h | h
    · exact .inl ⟨d, he.1, Delivery.reported_same h⟩
    · exact .inl (hold (List.mem_of_mem_erase h))
  | claimUnanswered | completeUnanswered | redeliver | ack =>
    exact .inl (hold (List.mem_of_mem_erase h))
  | _ => exact .inl (hold h)

theorem confirmation_origin {net : Network} {e : Event} (he : DispatchNetwork.Enabled net e)
    {c : Confirmation} (h : c ∈ net.confirmedAfter e) :
    c ∈ net.confirmed ∨ (c.owner, c.record) ∈ net.control.issued := by
  cases e with
  | publish owner record =>
    rcases List.mem_cons.mp h with rfl | h
    · exact .inr he
    · exact .inl h
  | crash owner => exact .inl (List.mem_filter.mp h).1
  | _ => exact .inl h

theorem step_routed {net net' : Network} {e : Event} (h : Routed net)
    (hstep : DispatchNetwork.system.Step net e net') : Routed net' := by
  obtain ⟨he, rfl⟩ := hstep
  obtain ⟨hcontrol, hevolves, hissued⟩ := h.control_after he
  refine ⟨hcontrol, ?_, ?_, ?_⟩
  · intro c hc
    rcases confirmation_origin he hc with hold | hnew
    · exact hissued _ (h.confirmed c hold)
    · exact hissued _ hnew
  · intro m hm
    rcases message_origin he hm with hold | ⟨owner, record, hentry, hsubject, hpayload⟩
    · exact (h.messages m hold).evolves hevolves
    · obtain ⟨o, ho, hnames⟩ := (reachable_invariant h.control).issued _ hentry
      have hnamed : Named net.control.store m :=
        ⟨o, ho, hnames.2.2.2.2.trans hpayload.symm, hnames.2.2.2.1.trans hsubject.symm⟩
      exact hnamed.evolves hevolves
  · intro d' hd'
    rcases delivery_origin he hd' with ⟨d, hd, hmessage, hqueue⟩ | ⟨hm, hqueue⟩
    · rw [hmessage, hqueue]
      exact ⟨(h.deliveries d hd).1.evolves hevolves, (h.deliveries d hd).2⟩
    · exact ⟨(h.messages _ hm).evolves hevolves, hqueue⟩

theorem reachable_routed {net : Network} (h : DispatchNetwork.Reachable net) : Routed net := by
  refine h.invariant ?_ fun _ _ _ => step_routed
  rintro net ⟨hcontrol, hstream, hconfirmed, hdeliveries⟩
  refine ⟨.initial hcontrol, ?_, ?_, ?_⟩
  · rw [hconfirmed]
    exact fun _ hc => absurd hc List.not_mem_nil
  · rw [hstream]
    exact fun _ hm => absurd hm List.not_mem_nil
  · rw [hdeliveries]
    exact fun _ hd => absurd hd List.not_mem_nil

/-- The outbox row of an Attempt, its message and the snapshot of its Run name one Queue. -/
structure RoutedAttempt (s : Store) (a : AttemptRow) (r : RunRow) (o : OutboxRow) : Prop where
  run : r ∈ s.runs ∧ r.id = a.runId
  only : s.outbox.filter (fun o => o.attemptId = a.id) = [o]
  outbox_run : o.runId = r.id
  subject : ∀ text : Uuid → String, subjectText text o.subject = "crono.dispatch." ++ text r.queueId
  payload : o.payload = ⟨o.id, r.id, a.id, r.queueId⟩
  snapshot : r.executionSnapshot.queueId = some r.queueId

theorem Consistent.routedAttempt {s : Store} (h : Consistent s) {a : AttemptRow}
    (ha : a ∈ s.runAttempts) : ∃ r o, RoutedAttempt s a r o := by
  obtain ⟨r, past, newest, d, hholds, hid, hd, rfl⟩ := h.of_attempt ha
  have hlinked := hholds.live.linked d hd
  refine ⟨r, d.outbox, ⟨hholds.run_mem, hid⟩, ?_, hlinked.outbox_run, ?_, hlinked.payload,
    hholds.live.queue⟩
  · exact Consistent.outbox_of_attempt h hlinked.outbox_attempt (hholds.outbox_mem hd)
  · intro text
    rw [hlinked.subject]
    rfl

theorem Named.grantable_iff {s : Store} (hs : Consistent s) {m : Message} (h : Named s m)
    {a : AttemptRow} (ha : a ∈ s.runAttempts) (hid : a.id = m.envelope.attemptId)
    (workerId : String) :
    grantable ⟨m.envelope.runId, m.envelope.attemptId, m.subject.queueId, workerId⟩ s a = true ↔
      a.status = .queued :=
  ⟨fun hgrant => (RunLifecycle.grantable_iff.mp hgrant).2.2.1,
    fun hqueued => h.grantable hs ha hid.symm hqueued workerId⟩

/-- Every Attempt is routed over the Queue of its Run; a worker never sees a message of another
Queue, and the Queue never makes a claim fail. -/
theorem dispatch_routing_consistent {net : Network} (h : DispatchNetwork.Reachable net) :
    (∀ a ∈ net.control.store.runAttempts, ∃ r o, RoutedAttempt net.control.store a r o) ∧
    (∀ d ∈ net.deliveries, d.message.envelope.queueId = d.queueId) ∧
    ∀ d ∈ net.deliveries,
      (∃ a ∈ net.control.store.runAttempts, a.id = d.claimRequest.attemptId ∧
        a.runId = d.claimRequest.runId) ∧
      ∀ a ∈ net.control.store.runAttempts, a.id = d.claimRequest.attemptId →
        (grantable d.claimRequest net.control.store a = true ↔ a.status = .queued) := by
  have hrouted := reachable_routed h
  have hs := (reachable_invariant hrouted.control).consistent
  refine ⟨fun a ha => Consistent.routedAttempt hs ha, ?_, ?_⟩
  · intro d hd
    obtain ⟨hnamed, hqueue⟩ := hrouted.deliveries d hd
    obtain ⟨r, _, _, _, _, _, hsubject, henvelope⟩ := hnamed.dispatch hs
    rw [hqueue, hsubject, henvelope]
  · intro d hd
    obtain ⟨hnamed, hqueue⟩ := hrouted.deliveries d hd
    constructor
    · obtain ⟨r, past, newest, x, hholds, hx, _, henvelope⟩ := hnamed.dispatch hs
      refine ⟨x.attempt, hholds.attempt_mem hx, ?_, ?_⟩
      · change _ = d.message.envelope.attemptId
        rw [henvelope]
      · change _ = d.message.envelope.runId
        rw [henvelope]
        exact (hholds.live.linked x hx).attempt_run
    · intro a ha hid
      have hiff := Named.grantable_iff hs hnamed ha hid d.workerId
      rw [← hqueue] at hiff
      exact hiff

/-- The delivered message of the deployment. -/
theorem dispatch_routing_consistent_demo :
    ∃ d ∈ (DispatchNetwork.system.run demoNetwork demoMarked).deliveries,
      d.message.envelope.queueId = d.queueId := by
  have hreachable :
      DispatchNetwork.Reachable (DispatchNetwork.system.run demoNetwork demoMarked) := by
    refine ⟨demoNetwork, demoNetwork_initial,
      .of_admits ⟨⟨rfl, trivial⟩, ⟨rfl, trivial⟩, ?_, ?_, ?_,
      trivial⟩⟩
    · exact List.mem_singleton.mpr rfl
    · exact List.mem_singleton.mpr rfl
    · exact ⟨List.mem_singleton.mpr rfl, rfl⟩
  have hd : demoDelivery .received ∈
      (DispatchNetwork.system.run demoNetwork demoMarked).deliveries := List.mem_singleton.mpr rfl
  exact ⟨_, hd, (dispatch_routing_consistent hreachable).2.1 _ hd⟩

end DispatchRouting
