import Crono.DispatchNetwork

/-! Whether a queued Attempt can still be claimed. A dispatch message that is claimed before
its publication is acknowledged in the database is consumed by the refusal, and the Attempt
that becomes queued afterwards has no message left; when every answered claim comes after
that acknowledgement, no message is consumed before its Attempt is granted or ended. -/
namespace DispatchDelivery

open RunDomain WorkflowDomain SqlTable ControlPlaneSchema RunStore WorkflowStore
open ControlPlane StoreWrites RunLifecycle RunCoupling DispatchNetwork

/-- A delivery of this message to a worker of its Queue is granted. -/
def Grants (s : Store) (m : Message) : Prop :=
  ∀ workerId now, ∃ snapshot,
    (claimAttempt ⟨m.envelope.runId, m.envelope.attemptId, m.subject.queueId, workerId⟩ now s).1 =
      .ok ⟨true, 60, some snapshot⟩

/-- Every queued Attempt has an unacknowledged message that a later delivery can claim. -/
def NoDispatchLost (net : Network) : Prop :=
  ∀ a ∈ net.control.store.runAttempts, a.status = .queued →
    ∃ m ∈ net.stream.messages, m.envelope.attemptId = a.id ∧ Grants net.control.store m

def demoMessage : Message := ⟨1, ⟨1⟩, ⟨8, 6, 7, 1⟩⟩

def demoDelivery (progress : Progress) : Delivery := ⟨"worker", 1, demoMessage, progress⟩

def demoNetwork : Network := ⟨demoInitial, .empty, [], []⟩

/-- The message is published, delivered, claimed and acknowledged before its publication is
marked in the database. -/
def demoEarlyClaim : List Event :=
  [.control demoCreate, .control demoClaimOutbox, .publish 9 demoRecord,
    .deliver "worker" 1 demoMessage, .claim (demoDelivery .received) 0,
    .ack (demoDelivery .refused), .markPublished ⟨9, demoRecord, 1⟩ 0]

theorem demoNetwork_initial : DispatchNetwork.initial demoNetwork :=
  ⟨demoInitial_initial, rfl, rfl, rfl⟩

theorem demoEarlyClaim_admitted : DispatchNetwork.system.Admits demoNetwork demoEarlyClaim := by
  refine ⟨⟨rfl, trivial⟩, ⟨rfl, trivial⟩, ?_, ?_, ?_, ?_, ?_, trivial⟩
  · exact List.mem_singleton.mpr rfl
  · exact ⟨List.mem_singleton.mpr rfl, rfl⟩
  · exact ⟨List.mem_singleton.mpr rfl, rfl, rfl⟩
  · exact ⟨List.mem_singleton.mpr rfl, rfl⟩
  · exact List.mem_singleton.mpr rfl

theorem dispatch_lost_by_early_claim :
    ¬ ∀ net, DispatchNetwork.Reachable net → NoDispatchLost net := by
  intro h
  have hreachable : DispatchNetwork.Reachable
      (DispatchNetwork.system.run demoNetwork demoEarlyClaim) :=
    ⟨demoNetwork, demoNetwork_initial, .of_admits demoEarlyClaim_admitted⟩
  have hmessages :
      (DispatchNetwork.system.run demoNetwork demoEarlyClaim).stream.messages = [] := by
    decide
  have hqueued : ∃ a ∈ (DispatchNetwork.system.run demoNetwork
      demoEarlyClaim).control.store.runAttempts, a.status = .queued := by
    decide
  obtain ⟨a, ha, hstatus⟩ := hqueued
  obtain ⟨m, hm, _⟩ := h _ hreachable a ha hstatus
  rw [hmessages] at hm
  cases hm

/-- An answered claim finds the publication of its message marked: the Attempt is no longer
pending. -/
def ClaimsPublished (net : Network) : Event → Prop
  | .claim d _ => ∀ a ∈ net.control.store.runAttempts,
      a.id = d.message.envelope.attemptId → a.status ≠ .pendingDispatch
  | _ => True

/-- A message carries the payload and the subject of an outbox row. -/
def Named (s : Store) (m : Message) : Prop :=
  ∃ o ∈ s.outbox, o.payload = m.envelope ∧ o.subject = m.subject

/-- The Attempt has been granted or has ended: no message of it is needed any more. -/
def Spent (s : Store) (attemptId : Uuid) : Prop :=
  ∃ a ∈ s.runAttempts, a.id = attemptId ∧ 2 ≤ AttemptStatus.rank a.status

/-- The Attempts a publication has been stored or confirmed for. -/
def Network.sent (net : Network) : List Uuid :=
  net.stream.recent.map Prod.fst ++ net.confirmed.map fun c => c.record.attemptId

/-- An Attempt that is queued, or that a marked publication would make queued. -/
def Owed (sent : List Uuid) (a : AttemptRow) : Prop :=
  a.status = .queued ∨ (a.status = .pendingDispatch ∧ a.id ∈ sent)

structure Kept (net : Network) : Prop where
  control : ControlPlane.Reachable net.control
  confirmed : ∀ c ∈ net.confirmed, (c.owner, c.record) ∈ net.control.issued
  sent : ∀ x ∈ Network.sent net, ∃ a ∈ net.control.store.runAttempts, a.id = x
  named : ∀ m ∈ net.stream.messages, Named net.control.store m
  deliveries : ∀ d ∈ net.deliveries, Named net.control.store d.message ∧
    d.queueId = d.message.subject.queueId ∧
    (d.progress ≠ .received → Spent net.control.store d.message.envelope.attemptId)
  owed : ∀ a ∈ net.control.store.runAttempts, Owed (Network.sent net) a →
    ∃ m ∈ net.stream.messages, m.envelope.attemptId = a.id

theorem Named.evolves {s t : Store} {m : Message} (h : Named s m) (he : StoreEvolves s t) :
    Named t m := by
  obtain ⟨o, ho, hpayload, hsubject⟩ := h
  obtain ⟨o', ho', hmoved⟩ := he.outbox.of_mem ho
  exact ⟨o', ho', hmoved.payload.trans hpayload, hmoved.subject.trans hsubject⟩

theorem Spent.evolves {s t : Store} {attemptId : Uuid} (h : Spent s attemptId)
    (he : StoreEvolves s t) : Spent t attemptId := by
  obtain ⟨a, ha, hid, hrank⟩ := h
  obtain ⟨a', ha', hmoved⟩ := he.attempts.of_mem ha
  exact ⟨a', ha', hmoved.id.trans hid, hrank.trans hmoved.progress⟩

theorem Named.dispatch {s : Store} (hs : Consistent s) {m : Message} (h : Named s m) :
    ∃ r past newest d, Holds s r past newest ∧ d ∈ past ++ [newest] ∧
      m.subject = ⟨r.queueId⟩ ∧ m.envelope = ⟨d.outbox.id, r.id, d.attempt.id, r.queueId⟩ := by
  obtain ⟨o, ho, hpayload, hsubject⟩ := h
  obtain ⟨r, past, newest, d, hholds, _, hd, rfl⟩ := hs.of_outbox ho
  have hlinked := hholds.live.linked d hd
  exact ⟨r, past, newest, d, hholds, hd, hsubject.symm.trans hlinked.subject,
    hpayload.symm.trans hlinked.payload⟩

theorem Named.grantable {s : Store} (hs : Consistent s) {m : Message} (h : Named s m)
    {a : AttemptRow} (ha : a ∈ s.runAttempts) (hid : m.envelope.attemptId = a.id)
    (hqueued : a.status = .queued) (workerId : String) :
    grantable ⟨m.envelope.runId, m.envelope.attemptId, m.subject.queueId, workerId⟩ s a = true := by
  obtain ⟨r, past, newest, d, hholds, hd, hsubject, henvelope⟩ := h.dispatch hs
  have hsame : d.attempt = a := row_unique hs.keys.attempts (hholds.attempt_mem hd) ha
    (by rw [← hid, henvelope])
  subst hsame
  have hrun := (hholds.live.linked d hd).attempt_run
  rw [grantable_iff, hsubject, henvelope]
  exact ⟨rfl, hrun, hqueued, r, hholds.run_mem, hrun.symm, rfl⟩

theorem Named.grants {s : Store} (hs : Consistent s) {m : Message} (h : Named s m)
    {a : AttemptRow} (ha : a ∈ s.runAttempts) (hid : m.envelope.attemptId = a.id)
    (hqueued : a.status = .queued) : Grants s m := by
  intro workerId now
  have hgrant := h.grantable hs ha hid hqueued workerId
  rcases hs.claimAttempt_spec _ now with ⟨hnone, _⟩ | ⟨r, past, newest, snapshot, _, _, _, _, _, hc⟩
  · exact absurd hgrant (by simpa using List.find?_eq_none.mp hnone a ha)
  · exact ⟨snapshot, by rw [hc]⟩

/-- An Attempt owed a message after a command was owed one before it. -/
theorem owed_before {s : ControlPlane.State} (hs : Consistent s.store) {c : Command}
    (hc : ControlPlane.Enabled s c) {sent : List Uuid}
    (hsent : ∀ x ∈ sent, ∃ a ∈ s.store.runAttempts, a.id = x)
    (hmarked : ∀ owner record streamSequence now,
      c = .markPublished owner record streamSequence now → record.attemptId ∈ sent)
    {a' : AttemptRow} (ha' : a' ∈ (transact s c).runAttempts) (howed : Owed sent a') :
    ∃ a ∈ s.store.runAttempts, a.id = a'.id ∧ Owed sent a := by
  have hwrites := transact_writes hs.keys hc
  rcases howed with hqueued | ⟨hpending, hmem⟩
  · rcases hwrites.attempt_origin ha' (by rw [hqueued]; rfl) with hp | hentered | hsame
    · rw [hqueued] at hp
      cases hp
    · cases c with
      | markPublished owner record streamSequence now =>
        simp only [transact] at ha'
        unfold markPublished at ha'
        split at ha'
        · exact ⟨a', ha', rfl, .inl hqueued⟩
        split at ha'
        · exact ⟨a', ha', rfl, .inl hqueued⟩
        rcases update_cases ha' with ⟨ha, _⟩ | ⟨a, ha, hguard, rfl⟩
        · exact ⟨a', ha, rfl, .inl hqueued⟩
        · simp only [Bool.and_eq_true, decide_eq_true_eq] at hguard
          refine ⟨a, ha, rfl, .inr ⟨hguard.2, ?_⟩⟩
          rw [hguard.1]
          exact hmarked owner record streamSequence now rfl
      | claimAttempt =>
        rw [hqueued] at hentered
        cases hentered
      | _ => cases hentered
    · obtain ⟨a, ha, hid, _, hstatus, _⟩ := hsame
      exact ⟨a, ha, hid, .inl (hstatus.trans hqueued)⟩
  · obtain ⟨a, ha, hid⟩ := hsent a'.id hmem
    have hmoved : AttemptEvolves a a' := hwrites.evolves.attempts.of_key
      (fun _ _ he => he.id) (hwrites.keysUnique hs.keys).attempts ha ha' hid.symm
    have hrank := hmoved.progress
    rw [hpending] at hrank
    refine ⟨a, ha, hid, .inr ⟨?_, hid ▸ hmem⟩⟩
    cases hstatus : a.status <;> simp [hstatus, AttemptStatus.rank] at hrank
    rfl

/-- The database part of the invariant, across the command of an event. -/
theorem Kept.commit {net : Network} (h : Kept net) {c : Command}
    (hc : ControlPlane.Enabled net.control c)
    (hmarked : ∀ owner record streamSequence now,
      c = .markPublished owner record streamSequence now → record.attemptId ∈ Network.sent net) :
    Kept { net with control := ControlPlane.next net.control c } := by
  have hs := (reachable_invariant h.control).consistent
  have hevolves : StoreEvolves net.control.store (transact net.control c) :=
    (transact_writes hs.keys hc).evolves
  refine ⟨h.control.tail ⟨hc, rfl⟩, ?_, ?_, ?_, ?_, ?_⟩
  · intro confirmation hconfirmed
    exact List.mem_append_left _ (h.confirmed confirmation hconfirmed)
  · intro x hx
    obtain ⟨a, ha, hid⟩ := h.sent x hx
    obtain ⟨a', ha', hmoved⟩ := hevolves.attempts.of_mem ha
    exact ⟨a', ha', hmoved.id.trans hid⟩
  · intro m hm
    exact (h.named m hm).evolves hevolves
  · intro d hd
    obtain ⟨hnamed, hqueue, hspent⟩ := h.deliveries d hd
    exact ⟨hnamed.evolves hevolves, hqueue, fun hprogress => (hspent hprogress).evolves hevolves⟩
  · intro a' ha' howed
    obtain ⟨a, ha, hid, howed⟩ := owed_before hs hc h.sent hmarked ha' howed
    obtain ⟨m, hm, hattempt⟩ := h.owed a ha howed
    exact ⟨m, hm, hattempt.trans hid⟩

theorem Kept.replaceDeliveries {net : Network} (h : Kept net) {deliveries : List Delivery}
    (hd : ∀ d ∈ deliveries, d ∈ net.deliveries ∨ (Named net.control.store d.message ∧
      d.queueId = d.message.subject.queueId ∧
      (d.progress ≠ .received → Spent net.control.store d.message.envelope.attemptId))) :
    Kept { net with deliveries := deliveries } := by
  refine { h with deliveries := ?_ }
  intro d hmem
  rcases hd d hmem with hold | hnew
  · exact h.deliveries d hold
  · exact hnew

theorem Kept.of_sent {net : Network} (h : Kept net) {stream : Stream}
    {confirmed : List Confirmation} (hmessages : stream.messages = net.stream.messages)
    (hconfirmed : ∀ c ∈ confirmed, (c.owner, c.record) ∈ net.control.issued)
    (hsent : ∀ x ∈ Network.sent { net with stream := stream, confirmed := confirmed },
      x ∈ Network.sent net) : Kept { net with stream := stream, confirmed := confirmed } where
  control := h.control
  confirmed := hconfirmed
  sent := fun x hx => h.sent x (hsent x hx)
  named := fun m hm => h.named m (hmessages ▸ hm)
  deliveries := h.deliveries
  owed := by
    intro a ha howed
    obtain ⟨m, hm, hid⟩ := h.owed a ha (howed.imp id fun hpending =>
      ⟨hpending.1, hsent a.id hpending.2⟩)
    exact ⟨m, hmessages ▸ hm, hid⟩

/-- A new message of an outbox row. -/
theorem Kept.store {net : Network} (h : Kept net) {message : Message} {sequence : ℕ}
    (hnamed : Named net.control.store message)
    (hexists : ∃ a ∈ net.control.store.runAttempts, a.id = message.envelope.attemptId)
    {confirmed : List Confirmation}
    (hconfirmed : ∀ c ∈ confirmed, (c.owner, c.record) ∈ net.control.issued ∧
      (c ∈ net.confirmed ∨ c.record.attemptId = message.envelope.attemptId)) :
    Kept { net with
      stream := ⟨net.stream.messages ++ [message], sequence,
        (message.envelope.attemptId, sequence) :: net.stream.recent⟩
      confirmed := confirmed } := by
  have hsent : ∀ x ∈ Network.sent { net with
      stream := ⟨net.stream.messages ++ [message], sequence,
        (message.envelope.attemptId, sequence) :: net.stream.recent⟩
      confirmed := confirmed },
      x ∈ Network.sent net ∨ x = message.envelope.attemptId := by
    intro x hx
    rcases List.mem_append.mp hx with hx | hx
    · rcases List.mem_cons.mp hx with hx | hx
      · exact .inr hx
      · exact .inl (List.mem_append_left _ hx)
    · obtain ⟨c, hc, rfl⟩ := List.mem_map.mp hx
      rcases (hconfirmed c hc).2 with hold | hnew
      · exact .inl (List.mem_append_right _ (List.mem_map_of_mem hold))
      · exact .inr hnew
  refine ⟨h.control, fun c hc => (hconfirmed c hc).1, ?_, ?_, h.deliveries, ?_⟩
  · intro x hx
    rcases hsent x hx with hold | hnew
    · exact h.sent x hold
    · rw [hnew]
      exact hexists
  · intro m hm
    rcases List.mem_append.mp hm with hm | hm
    · exact h.named m hm
    · rw [List.mem_singleton.mp hm]
      exact hnamed
  · intro a ha howed
    have hbefore : Owed (Network.sent net) a ∨ a.id = message.envelope.attemptId := by
      rcases howed with hqueued | ⟨hpending, hmem⟩
      · exact .inl (.inl hqueued)
      · exact (hsent a.id hmem).imp (fun hold => .inr ⟨hpending, hold⟩) id
    rcases hbefore with howed | hnew
    · obtain ⟨m, hm, hid⟩ := h.owed a ha howed
      exact ⟨m, List.mem_append_left _ hm, hid⟩
    · exact ⟨message, List.mem_append_right _ (List.mem_singleton_self _), hnew.symm⟩

/-- A publication stores a message of its outbox row, or repeats one that is still needed. -/
theorem Kept.publish {net : Network} (h : Kept net) {owner : Uuid} {record : OutboxRecord}
    (hissued : (owner, record) ∈ net.control.issued) {confirmed : List Confirmation}
    (hconfirmed : ∀ c ∈ confirmed, c ∈ net.confirmed ∨ (c.owner = owner ∧ c.record = record)) :
    Kept { net with stream := (net.stream.publish record).2, confirmed := confirmed } := by
  have hinvariant := reachable_invariant h.control
  have hissued' : ∀ c ∈ confirmed, (c.owner, c.record) ∈ net.control.issued := by
    intro c hc
    rcases hconfirmed c hc with hold | ⟨howner, hrecord⟩
    · exact h.confirmed c hold
    · rw [howner, hrecord]
      exact hissued
  rcases net.stream.publish_cases record with ⟨hsame, hknown⟩ | hstored
  · rw [hsame]
    refine h.of_sent rfl hissued' ?_
    intro x hx
    rcases List.mem_append.mp hx with hx | hx
    · exact List.mem_append_left _ hx
    · obtain ⟨c, hc, rfl⟩ := List.mem_map.mp hx
      rcases hconfirmed c hc with hold | ⟨_, hrecord⟩
      · exact List.mem_append_right _ (List.mem_map_of_mem hold)
      · rw [hrecord]
        exact List.mem_append_left _ hknown
  · obtain ⟨o, ho, _, _, hattempt, hsubject, hpayload⟩ := hinvariant.issued _ hissued
    obtain ⟨r, past, newest, d, hholds, _, hd, rfl⟩ := hinvariant.consistent.of_outbox ho
    have hlinked := hholds.live.linked d hd
    have hid : record.payload.attemptId = record.attemptId := by
      rw [← hpayload, hlinked.payload, ← hattempt, hlinked.outbox_attempt]
    rw [hstored, ← hid]
    refine h.store ⟨d.outbox, ho, hpayload, hsubject⟩ ⟨d.attempt, hholds.attempt_mem hd, ?_⟩ ?_
    · rw [hid, ← hattempt]
      exact hlinked.outbox_attempt.symm
    · intro c hc
      exact ⟨hissued' c hc, (hconfirmed c hc).imp id fun hnew => by rw [hnew.2, hid]⟩

theorem Kept.shrink {net : Network} (h : Kept net) {recent : List (Uuid × ℕ)}
    {confirmed : List Confirmation} (hrecent : recent ⊆ net.stream.recent)
    (hconfirmed : confirmed ⊆ net.confirmed) :
    Kept { net with stream := { net.stream with recent := recent }, confirmed := confirmed } := by
  refine h.of_sent rfl (fun c hc => h.confirmed c (hconfirmed hc)) ?_
  intro x hx
  rcases List.mem_append.mp hx with hx | hx
  · exact List.mem_append_left _ (List.map_subset _ hrecent hx)
  · exact List.mem_append_right _ (List.map_subset _ hconfirmed hx)

theorem Kept.settled_spent {net : Network} (h : Kept net) {d : Delivery} (hd : d ∈ net.deliveries)
    (hsettled : d.settled = true) : Spent net.control.store d.message.envelope.attemptId := by
  obtain ⟨hnamed, hqueue, hspent⟩ := h.deliveries d hd
  apply hspent
  intro hreceived
  obtain ⟨r, _, _, _, _, _, hsubject, henvelope⟩ :=
    hnamed.dispatch (reachable_invariant h.control).consistent
  simp [Delivery.settled, hreceived, hqueue, hsubject, henvelope] at hsettled

theorem Kept.ack {net : Network} (h : Kept net) {d : Delivery} (hd : d ∈ net.deliveries)
    (hsettled : d.settled = true) :
    Kept { net with stream := net.stream.acknowledge d.message } := by
  have hs := (reachable_invariant h.control).consistent
  obtain ⟨b, hb, hbid, hrank⟩ := h.settled_spent hd hsettled
  refine { h with named := ?_, owed := ?_ }
  · intro m hm
    exact h.named m (List.mem_filter.mp hm).1
  · intro a ha howed
    obtain ⟨m, hm, hmid⟩ := h.owed a ha howed
    refine ⟨m, List.mem_filter.mpr ⟨hm, ?_⟩, hmid⟩
    rw [decide_eq_true_eq]
    intro hsame
    have hab : b = a := row_unique hs.keys.attempts hb ha (by rw [hbid, ← hsame, hmid])
    rw [hab] at hrank
    rcases howed with hqueued | ⟨hpending, _⟩
    · simp [hqueued, AttemptStatus.rank] at hrank
    · simp [hpending, AttemptStatus.rank] at hrank

/-- An answered claim spends the Attempt, when it was no longer pending. -/
theorem claim_spends {net : Network} (h : Kept net) {d : Delivery} {now : Instant}
    (hclaims : Claims net d) (hpublished : ClaimsPublished net (.claim d now)) :
    Spent (claimAttempt d.claimRequest now net.control.store).2 d.message.envelope.attemptId := by
  have hs := (reachable_invariant h.control).consistent
  obtain ⟨hd, _, _⟩ := hclaims
  obtain ⟨hnamed, hqueue, _⟩ := h.deliveries d hd
  obtain ⟨r, past, newest, e, hholds, he, hsubject, henvelope⟩ := hnamed.dispatch hs
  have hid : d.message.envelope.attemptId = e.attempt.id := by rw [henvelope]
  have hmem := hholds.attempt_mem he
  rcases hs.claimAttempt_spec d.claimRequest now with ⟨hnone, hc⟩ |
    ⟨r', past', newest', snapshot, hholds', _, hgrant, _, _, hc⟩
  · rw [hc]
    refine ⟨e.attempt, hmem, hid.symm, ?_⟩
    have hnotPending := hpublished e.attempt hmem hid.symm
    have hnotQueued : e.attempt.status ≠ .queued := by
      intro hqueued
      have hgrant := hnamed.grantable hs hmem hid hqueued d.workerId
      rw [← hqueue] at hgrant
      exact List.find?_eq_none.mp hnone e.attempt hmem hgrant
    cases hstatus : e.attempt.status <;> simp_all [AttemptStatus.rank]
  · rw [hc]
    have hmem' := hholds'.attempt_mem
      (List.mem_append_right past' (List.mem_singleton_self newest'))
    refine ⟨grantedAttempt d.claimRequest now newest'.attempt, ?_, (grantable_iff.mp hgrant).1, ?_⟩
    · exact mem_update.mpr ⟨newest'.attempt, hmem', by simp [hgrant]⟩
    · exact le_rfl

theorem initial_kept {net : Network} (h : DispatchNetwork.initial net) : Kept net := by
  obtain ⟨hcontrol, hstream, hconfirmed, hdeliveries⟩ := h
  obtain ⟨control, stream, confirmed, deliveries⟩ := net
  subst hstream hconfirmed hdeliveries
  refine ⟨.initial hcontrol, nofun, nofun, nofun, nofun, ?_⟩
  obtain ⟨catalog, schedules, _, _, rfl⟩ := hcontrol
  intro a ha
  cases ha

theorem step_kept {net net' : Network} {e : Event} (h : Kept net)
    (hstep : (DispatchNetwork.system.restrict ClaimsPublished).Step net e net') : Kept net' := by
  obtain ⟨⟨hc, hpublished⟩, rfl⟩ := hstep
  cases e with
  | control c =>
    refine h.commit hc.2 ?_
    intro owner record streamSequence now heq
    rw [heq] at hc
    exact absurd hc.1 (by simp [delivered])
  | publish owner record =>
    refine h.publish hc ?_
    intro confirmation hmem
    rcases List.mem_cons.mp hmem with rfl | hold
    · exact .inr ⟨rfl, rfl⟩
    · exact .inl hold
  | publishUnconfirmed owner record => exact h.publish hc fun _ hold => .inl hold
  | markPublished confirmation now =>
    refine h.commit (h.confirmed confirmation hc) ?_
    intro owner record streamSequence now' heq
    cases heq
    exact List.mem_append_right _ (List.mem_map.mpr ⟨confirmation, hc, rfl⟩)
  | crash owner => exact h.shrink (List.Subset.refl _) List.filter_sublist.subset
  | leaveWindow messageId => exact h.shrink List.filter_sublist.subset (List.Subset.refl _)
  | deliver workerId queueId message =>
    refine h.replaceDeliveries ?_
    intro d hd
    rcases List.mem_cons.mp hd with rfl | hold
    · exact .inr ⟨h.named message hc.1, hc.2.symm, fun hprogress => absurd rfl hprogress⟩
    · exact .inl hold
  | claim d now =>
    have hcommitted := h.commit (c := .claimAttempt d.claimRequest now) trivial nofun
    obtain ⟨hnamed, hqueue, _⟩ := hcommitted.deliveries d hc.1
    have hspent := claim_spends h hc hpublished
    refine hcommitted.replaceDeliveries ?_
    intro d' hd'
    rcases List.mem_append.mp hd' with hnew | hold
    · right
      have hsame := Delivery.answered_same hnew
      rw [hsame.1, hsame.2]
      exact ⟨hnamed, hqueue, fun _ => hspent⟩
    · exact .inl (List.mem_of_mem_erase hold)
  | claimUnanswered d now =>
    have hcommitted := h.commit (c := .claimAttempt d.claimRequest now) trivial nofun
    exact hcommitted.replaceDeliveries fun _ hold => .inl (List.mem_of_mem_erase hold)
  | complete d request retryAt now =>
    have hcommitted := h.commit (c := .completeAttempt request retryAt now) trivial nofun
    obtain ⟨hnamed, hqueue, hspent⟩ := hcommitted.deliveries d hc.1
    refine hcommitted.replaceDeliveries ?_
    intro d' hd'
    rcases List.mem_append.mp hd' with hnew | hold
    · right
      have hsame := Delivery.reported_same hnew
      rw [hsame.1, hsame.2]
      exact ⟨hnamed, hqueue, fun _ => hspent (by rw [hc.2.1]; exact nofun)⟩
    · exact .inl (List.mem_of_mem_erase hold)
  | completeUnanswered d request retryAt now =>
    have hcommitted := h.commit (c := .completeAttempt request retryAt now) trivial nofun
    exact hcommitted.replaceDeliveries fun _ hold => .inl (List.mem_of_mem_erase hold)
  | redeliver d => exact h.replaceDeliveries fun _ hold => .inl (List.mem_of_mem_erase hold)
  | ack d =>
    exact (h.ack hc.1 hc.2).replaceDeliveries fun _ hold => .inl (List.mem_of_mem_erase hold)

/-- In every run in which each answered claim comes after the publication it answers to has
been marked, no dispatch is lost. -/
theorem no_dispatch_lost {net : Network}
    (h : (DispatchNetwork.system.restrict ClaimsPublished).Reachable net) : NoDispatchLost net := by
  have hkept : Kept net := h.invariant (fun _ => initial_kept) fun _ _ _ => step_kept
  intro a ha hqueued
  obtain ⟨m, hm, hid⟩ := hkept.owed a ha (.inl hqueued)
  exact ⟨m, hm, hid, (hkept.named m hm).grants (reachable_invariant hkept.control).consistent ha hid
    hqueued⟩

def demoMarked : List Event :=
  [.control demoCreate, .control demoClaimOutbox, .publish 9 demoRecord,
    .markPublished ⟨9, demoRecord, 1⟩ 0, .deliver "worker" 1 demoMessage]

theorem no_dispatch_lost_demo :
    (DispatchNetwork.system.run demoNetwork demoMarked).control.store.runAttempts.map
        AttemptRow.status = [.queued] ∧
      NoDispatchLost (DispatchNetwork.system.run demoNetwork demoMarked) := by
  refine ⟨by decide, no_dispatch_lost ⟨demoNetwork, demoNetwork_initial, ?_⟩⟩
  have hadmits :
      (DispatchNetwork.system.restrict ClaimsPublished).Admits demoNetwork demoMarked := by
    refine ⟨⟨⟨rfl, trivial⟩, trivial⟩, ⟨⟨rfl, trivial⟩, trivial⟩, ⟨?_, trivial⟩, ⟨?_, trivial⟩,
      ⟨⟨?_, rfl⟩, trivial⟩, trivial⟩
    · exact List.mem_singleton.mpr rfl
    · exact List.mem_singleton.mpr rfl
    · exact List.mem_singleton.mpr rfl
  exact .of_admits hadmits

end DispatchDelivery
