import Crono.ResourceNames

/-! The presence of workers: the heartbeats a server accepts, the one row it keeps of each worker,
and the removal of rows that nobody refreshes. A row is read back from the history of the table. -/
namespace WorkerPresence

open RunDomain SqlTable ControlPlaneSchema
open ResourceNames (ResourceNameError)

structure WorkerDiagnostics where
  hostname : String
  os : String
  architecture : String
  defaultShellPath : String
  defaultShellPresent : Bool
  dryRun : Bool
  lang : Option String
  lcAll : Option String
  tz : Option String
  deriving DecidableEq, Repr

structure WorkerHeartbeatRequest where
  workerId : String
  sessionId : Uuid
  queueId : Uuid
  concurrency : ℕ
  version : String
  diagnostics : Option WorkerDiagnostics
  deriving DecidableEq, Repr

inductive HeartbeatError where
  | identity
  | workerId (error : ResourceNameError)
  | concurrency
  | version
  | diagnostics
  | shellPath
  | environment
  deriving DecidableEq, Repr

def HeartbeatError.message (quote : Char → String) : HeartbeatError → String
  | .identity => "worker identity does not match control subject"
  | .workerId error => "worker ID is invalid: " ++ error.message quote
  | .concurrency => "worker concurrency must be between 1 and 256"
  | .version => "worker version must be a bounded, NUL-free value"
  | .diagnostics => "worker diagnostics contain an invalid identity or shell path"
  | .shellPath => "worker default shell path must be absolute"
  | .environment => "worker environment diagnostics are not bounded"

/-- `char::is_control`: the category Cc. -/
def isControl (c : Char) : Bool := c.toNat < 0x20 || (0x7f ≤ c.toNat && c.toNat < 0xa0)

def validateDiagnostics (details : WorkerDiagnostics) : Except HeartbeatError Unit :=
  if [details.hostname, details.os, details.architecture, details.defaultShellPath].any fun value =>
      value.toList.isEmpty || 255 < value.utf8ByteSize || value.toList.any isControl then
    .error .diagnostics
  else if details.defaultShellPath.toList.head? ≠ some '/' then .error .shellPath
  else if ([details.lang, details.lcAll, details.tz].filterMap id).any fun value =>
      128 < value.utf8ByteSize || value.toList.any isControl then
    .error .environment
  else .ok ()

def validateHeartbeat (request : WorkerHeartbeatRequest) (subjectWorker : String) :
    Except HeartbeatError Unit :=
  if request.workerId ≠ subjectWorker then .error .identity
  else
    match ResourceNames.validateResourceName request.workerId with
    | .error error => .error (.workerId error)
    | .ok () =>
      if request.concurrency < 1 ∨ 256 < request.concurrency then .error .concurrency
      else if request.version.toList = [] ∨ 128 < request.version.utf8ByteSize ∨
          Char.ofNat 0 ∈ request.version.toList then .error .version
      else
        match request.diagnostics with
        | some details => validateDiagnostics details
        | none => .ok ()

structure PresenceRow where
  workerId : String
  sessionId : Uuid
  queueId : Uuid
  concurrency : ℕ
  version : String
  diagnostics : Option WorkerDiagnostics
  startedAt : Instant
  lastSeenAt : Instant
  deriving DecidableEq, Repr

/-- The checks of `crono.worker_presence`. -/
structure PresenceRow.Admissible (row : PresenceRow) : Prop where
  workerId : WorkflowStore.validateResourceName row.workerId = true
  concurrency : 1 ≤ row.concurrency ∧ row.concurrency ≤ 256
  version : 1 ≤ row.version.toList.length ∧ row.version.toList.length ≤ 128
  timestamps : row.startedAt ≤ row.lastSeenAt

theorem admissible_iff {row : PresenceRow} : row.Admissible ↔
    WorkflowStore.validateResourceName row.workerId = true ∧
      (1 ≤ row.concurrency ∧ row.concurrency ≤ 256) ∧
      (1 ≤ row.version.toList.length ∧ row.version.toList.length ≤ 128) ∧
      row.startedAt ≤ row.lastSeenAt :=
  ⟨fun h => ⟨h.workerId, h.concurrency, h.version, h.timestamps⟩,
    fun h => ⟨h.1, h.2.1, h.2.2.1, h.2.2.2⟩⟩

instance (row : PresenceRow) : Decidable row.Admissible := decidable_of_iff _ admissible_iff.symm

def insertedRow (request : WorkerHeartbeatRequest) (now : Instant) : PresenceRow :=
  ⟨request.workerId, request.sessionId, request.queueId, request.concurrency, request.version,
    request.diagnostics, now, now⟩

def refreshedRow (request : WorkerHeartbeatRequest) (now : Instant) (row : PresenceRow) :
    PresenceRow :=
  { insertedRow request now with
    startedAt := if row.sessionId ≠ request.sessionId then now else row.startedAt }

def ofWorker (workerId : String) (row : PresenceRow) : Bool := row.workerId = workerId

/-- The rows after the upsert, before its constraints are checked. -/
def upserted (request : WorkerHeartbeatRequest) (now : Instant) (rows : List PresenceRow) :
    List PresenceRow :=
  if rows.any (ofWorker request.workerId) then
    update (ofWorker request.workerId) (refreshedRow request now) rows
  else rows ++ [insertedRow request now]

/-- `record_worker_heartbeat`: one statement, whose checks come before its foreign key. -/
def recordWorkerHeartbeat (queues : List QueueRow) (request : WorkerHeartbeatRequest)
    (now : Instant) (rows : List PresenceRow) : Except StoreError Unit × List PresenceRow :=
  if ¬ (insertedRow request now).Admissible ∨
      ∃ row ∈ (upserted request now rows).filter (ofWorker request.workerId), ¬ row.Admissible then
    (.error .internal, rows)
  else if queues.all fun q => q.id ≠ request.queueId then (.error .inUse, rows)
  else (.ok (), upserted request now rows)

def expiredPresence (now : Instant) (row : PresenceRow) : Bool :=
  row.lastSeenAt < now - seconds (7 * 86400)

/-- `ORDER BY last_seen_at`. -/
def presenceOrder (a b : PresenceRow) : Prop := a.lastSeenAt ≤ b.lastSeenAt

instance : DecidableRel presenceOrder := fun a b =>
  inferInstanceAs (Decidable (a.lastSeenAt ≤ b.lastSeenAt))

/-- The workers whose rows `remove_expired_worker_presence` deletes. -/
def expiredWorkers (limit : ℕ) (locked : PresenceRow → Bool) (now : Instant)
    (rows : List PresenceRow) : List String :=
  (selectBatch (expiredPresence now) locked presenceOrder limit rows).map PresenceRow.workerId

def removeWorkers (workers : List String) (rows : List PresenceRow) : List PresenceRow :=
  rows.filter fun row => row.workerId ∉ workers

inductive PresenceEvent where
  | beat (request : WorkerHeartbeatRequest) (now : Instant)
  | removed (workerId : String)
  deriving DecidableEq, Repr

def PresenceEvent.worker : PresenceEvent → String
  | .beat request _ => request.workerId
  | .removed workerId => workerId

def historyOf (workerId : String) (history : List PresenceEvent) : List PresenceEvent :=
  history.filter fun e => e.worker = workerId

def beats (session : List (WorkerHeartbeatRequest × Instant)) : List PresenceEvent :=
  session.map fun b => .beat b.1 b.2

/-- The history of the worker ends with the heartbeats of one session, as many as there are; the
row shows when the first of them came and what the last one said. -/
def Records (history : List PresenceEvent) (row : PresenceRow) : Prop :=
  ∃ earlier session last, historyOf row.workerId history = earlier ++ beats session ∧
    (∀ b ∈ session, b.1.sessionId = row.sessionId) ∧
    (∀ request now, earlier.getLast? = some (.beat request now) →
      request.sessionId ≠ row.sessionId) ∧
    session.head?.map Prod.snd = some row.startedAt ∧
    session.getLast? = some (last, row.lastSeenAt) ∧
    row = { insertedRow last row.lastSeenAt with startedAt := row.startedAt }

/-- One row a worker, each admissible, of an existing Queue, and true to the history. -/
structure Presence (queues : List QueueRow) (history : List PresenceEvent)
    (rows : List PresenceRow) : Prop where
  workers : (rows.map PresenceRow.workerId).Nodup
  admissible : ∀ row ∈ rows, row.Admissible
  queue : ∀ row ∈ rows, ∃ q ∈ queues, q.id = row.queueId
  records : ∀ row ∈ rows, Records history row
  present : ∀ workerId request now,
    (historyOf workerId history).getLast? = some (.beat request now) →
      ∃ row ∈ rows, row.workerId = workerId

theorem historyOf_append (workerId : String) (history later : List PresenceEvent) :
    historyOf workerId (history ++ later) =
      historyOf workerId history ++ historyOf workerId later := List.filter_append _ _

theorem historyOf_other {workerId : String} {later : List PresenceEvent}
    (h : ∀ e ∈ later, e.worker ≠ workerId) : historyOf workerId later = [] := by
  rw [historyOf, List.filter_eq_nil_iff]
  intro e he
  simpa using h e he

theorem Records.append {history later : List PresenceEvent} {row : PresenceRow}
    (h : Records history row) (hother : ∀ e ∈ later, e.worker ≠ row.workerId) :
    Records (history ++ later) row := by
  obtain ⟨earlier, session, last, hsplit, hrest⟩ := h
  refine ⟨earlier, session, last, ?_, hrest⟩
  rw [historyOf_append, historyOf_other hother, List.append_nil, hsplit]

theorem beats_append (session : List (WorkerHeartbeatRequest × Instant))
    (request : WorkerHeartbeatRequest) (now : Instant) :
    beats (session ++ [(request, now)]) = beats session ++ [.beat request now] := by
  rw [beats, List.map_append]
  rfl

/-- A heartbeat continues the session of its row or opens the next one. -/
theorem Records.refreshed {history : List PresenceEvent} {row : PresenceRow}
    (h : Records history row) {request : WorkerHeartbeatRequest} {now : Instant}
    (hworker : row.workerId = request.workerId) :
    Records (history ++ [.beat request now]) (refreshedRow request now row) := by
  obtain ⟨earlier, session, last, hsplit, hsession, hearlier, hfirst, hlast, _⟩ := h
  have hhistory : historyOf request.workerId (history ++ [.beat request now]) =
      earlier ++ beats session ++ [.beat request now] := by
    rw [historyOf_append, ← hworker, hsplit]
    simp [historyOf, PresenceEvent.worker, hworker]
  by_cases hsame : row.sessionId = request.sessionId
  · have hstarted : (refreshedRow request now row).startedAt = row.startedAt := by
      simp [refreshedRow, hsame]
    refine ⟨earlier, session ++ [(request, now)], request, ?_, ?_, ?_, ?_, ?_, rfl⟩
    · rw [beats_append, ← List.append_assoc]
      exact hhistory
    · intro b hb
      rcases List.mem_append.mp hb with hb | hb
      · exact (hsession b hb).trans hsame
      · rw [List.mem_singleton.mp hb]
        rfl
    · intro r t hr
      have hother := hearlier r t hr
      rw [hsame] at hother
      exact hother
    · cases session with
      | nil => cases hlast
      | cons b session => exact hfirst.trans (congrArg some hstarted.symm)
    · exact List.getLast?_concat
  · have hstarted : (refreshedRow request now row).startedAt = now := by
      simp [refreshedRow, hsame]
    refine ⟨earlier ++ beats session, [(request, now)], request, hhistory, ?_, ?_, ?_, rfl, rfl⟩
    · intro b hb
      rw [List.mem_singleton.mp hb]
      rfl
    · intro r t hr
      have hbeat : (earlier ++ beats session).getLast? = some (.beat last row.lastSeenAt) := by
        rw [List.getLast?_append, beats, List.getLast?_map, hlast]
        rfl
      rw [hbeat] at hr
      cases hr
      have hmem := List.mem_of_getLast? hlast
      exact fun h => hsame ((hsession _ hmem).symm.trans h)
    · rw [hstarted]
      rfl

theorem records_inserted {history : List PresenceEvent} {request : WorkerHeartbeatRequest}
    (h : ∀ r t, (historyOf request.workerId history).getLast? ≠ some (.beat r t))
    (now : Instant) : Records (history ++ [.beat request now]) (insertedRow request now) := by
  refine ⟨historyOf request.workerId history, [(request, now)], request, ?_, ?_, ?_, rfl, rfl, rfl⟩
  · rw [insertedRow, historyOf_append]
    simp [historyOf, PresenceEvent.worker, beats]
  · intro b hb
    rw [List.mem_singleton.mp hb]
    rfl
  · intro r t hr
    exact absurd hr (h r t)

theorem recordWorkerHeartbeat_ok {queues : List QueueRow} {request : WorkerHeartbeatRequest}
    {now : Instant} {rows t : List PresenceRow}
    (h : recordWorkerHeartbeat queues request now rows = (.ok (), t)) :
    t = upserted request now rows ∧ (∃ q ∈ queues, q.id = request.queueId) ∧
      ∀ row ∈ t, row.workerId = request.workerId → row.Admissible := by
  unfold recordWorkerHeartbeat at h
  split at h
  · cases h
  rename_i hchecks
  split at h
  · cases h
  rename_i hqueue
  cases h
  rw [not_or, not_exists] at hchecks
  refine ⟨rfl, ?_, ?_⟩
  · simpa using hqueue
  · intro row hrow hworker
    by_cases hadmissible : row.Admissible
    · exact hadmissible
    · refine absurd ⟨List.mem_filter.mpr ⟨hrow, ?_⟩, hadmissible⟩ (hchecks.2 row)
      simp [ofWorker, hworker]

theorem recordWorkerHeartbeat_error {queues : List QueueRow} {request : WorkerHeartbeatRequest}
    {now : Instant} {rows : List PresenceRow} {e : StoreError}
    (h : (recordWorkerHeartbeat queues request now rows).1 = .error e) :
    (recordWorkerHeartbeat queues request now rows).2 = rows := by
  unfold recordWorkerHeartbeat at h ⊢
  split
  · rfl
  split
  · rfl
  · rename_i hchecks hqueue
    rw [if_neg hchecks, if_neg hqueue] at h
    cases h

variable {queues : List QueueRow} {history : List PresenceEvent} {rows : List PresenceRow}

theorem upserted_cases {request : WorkerHeartbeatRequest} {now : Instant} {row : PresenceRow}
    (h : row ∈ upserted request now rows) :
    (row ∈ rows ∧ row.workerId ≠ request.workerId) ∨
      (∃ old ∈ rows, old.workerId = request.workerId ∧ row = refreshedRow request now old) ∨
      (∀ old ∈ rows, old.workerId ≠ request.workerId) ∧ row = insertedRow request now := by
  unfold upserted at h
  by_cases hany : rows.any (ofWorker request.workerId) = true
  · rw [if_pos hany] at h
    rcases update_cases h with ⟨hrow, hother⟩ | ⟨old, hold, hworker, hrow⟩
    · exact .inl ⟨hrow, by simpa [ofWorker] using hother⟩
    · exact .inr (.inl ⟨old, hold, by simpa [ofWorker] using hworker, hrow⟩)
  · rw [if_neg hany] at h
    have hnone : ∀ old ∈ rows, old.workerId ≠ request.workerId := by
      simpa [ofWorker] using hany
    rcases List.mem_append.mp h with hrow | hrow
    · exact .inl ⟨hrow, hnone row hrow⟩
    · exact .inr (.inr ⟨hnone, List.mem_singleton.mp hrow⟩)

theorem upserted_other {request : WorkerHeartbeatRequest} {now : Instant} {row : PresenceRow}
    (h : row ∈ rows) (hother : request.workerId ≠ row.workerId) :
    row ∈ upserted request now rows := by
  unfold upserted
  by_cases hany : rows.any (ofWorker request.workerId) = true
  · rw [if_pos hany]
    refine mem_update_of_not h ?_
    simpa [ofWorker] using hother.symm
  · rw [if_neg hany]
    exact List.mem_append_left _ h

theorem upserted_workers {request : WorkerHeartbeatRequest} {now : Instant}
    (h : (rows.map PresenceRow.workerId).Nodup) :
    ((upserted request now rows).map PresenceRow.workerId).Nodup := by
  unfold upserted
  by_cases hany : rows.any (ofWorker request.workerId) = true
  · rw [if_pos hany, map_update]
    · exact h
    · intro row _ hworker
      have hworker : row.workerId = request.workerId := by simpa [ofWorker] using hworker
      exact hworker.symm
  · rw [if_neg hany]
    refine nodup_append_key h ?_
    simpa [ofWorker, insertedRow] using hany

theorem upserted_keeps {request : WorkerHeartbeatRequest} {now : Instant} {workerId : String}
    (h : (∃ row ∈ rows, row.workerId = workerId) ∨ workerId = request.workerId) :
    ∃ row ∈ upserted request now rows, row.workerId = workerId := by
  unfold upserted
  by_cases hany : rows.any (ofWorker request.workerId) = true
  · rw [if_pos hany]
    obtain ⟨row, hrow, hworker⟩ : ∃ row ∈ rows, row.workerId = workerId := by
      rcases h with h | rfl
      · exact h
      · simpa [ofWorker] using hany
    refine ⟨_, mem_update.mpr ⟨row, hrow, rfl⟩, ?_⟩
    split
    · rename_i hown
      have hown : row.workerId = request.workerId := by simpa [ofWorker] using hown
      exact hown.symm.trans hworker
    · exact hworker
  · rw [if_neg hany]
    rcases h with ⟨row, hrow, hworker⟩ | rfl
    · exact ⟨row, List.mem_append_left _ hrow, hworker⟩
    · exact ⟨_, List.mem_append_right _ (List.mem_singleton.mpr rfl), rfl⟩

theorem historyOf_beat (history : List PresenceEvent) (workerId : String)
    (request : WorkerHeartbeatRequest) (now : Instant) :
    historyOf workerId (history ++ [.beat request now]) = historyOf workerId history ++
      if request.workerId = workerId then [.beat request now] else [] := by
  rw [historyOf_append]
  by_cases hworker : request.workerId = workerId
  · simp [historyOf, PresenceEvent.worker, hworker]
  · simp [historyOf, PresenceEvent.worker, hworker]

theorem Presence.record (h : Presence queues history rows) {request : WorkerHeartbeatRequest}
    {now : Instant} {t : List PresenceRow}
    (hok : recordWorkerHeartbeat queues request now rows = (.ok (), t)) :
    Presence queues (history ++ [.beat request now]) t := by
  obtain ⟨rfl, hqueue, hadmissible⟩ := recordWorkerHeartbeat_ok hok
  refine ⟨upserted_workers h.workers, ?_, ?_, ?_, ?_⟩
  · intro row hrow
    rcases upserted_cases hrow with ⟨hold, _⟩ | ⟨_, _, _, rfl⟩ | ⟨_, rfl⟩
    · exact h.admissible row hold
    · exact hadmissible _ hrow rfl
    · exact hadmissible _ hrow rfl
  · intro row hrow
    rcases upserted_cases hrow with ⟨hold, _⟩ | ⟨_, _, _, rfl⟩ | ⟨_, rfl⟩
    · exact h.queue row hold
    · exact hqueue
    · exact hqueue
  · intro row hrow
    rcases upserted_cases hrow with ⟨hold, hother⟩ | ⟨old, hold, hworker, rfl⟩ | ⟨hnone, rfl⟩
    · refine (h.records row hold).append fun e he => ?_
      rw [List.mem_singleton.mp he]
      exact hother.symm
    · exact (h.records old hold).refreshed hworker
    · refine records_inserted (fun r t hlast => ?_) now
      obtain ⟨old, hold, hworker⟩ := h.present _ r t hlast
      exact hnone old hold hworker
  · intro workerId r t hlast
    rw [historyOf_beat] at hlast
    by_cases hworker : request.workerId = workerId
    · exact upserted_keeps (.inr hworker.symm)
    · rw [if_neg hworker, List.append_nil] at hlast
      exact upserted_keeps (.inl (h.present workerId r t hlast))

/-- Removed workers leave the history of the others as it was. -/
theorem Presence.remove (h : Presence queues history rows) (workers : List String) :
    Presence queues (history ++ workers.map .removed) (removeWorkers workers rows) := by
  have hkept {row : PresenceRow} (hrow : row ∈ removeWorkers workers rows) :
      row ∈ rows ∧ row.workerId ∉ workers := by simpa [removeWorkers] using hrow
  refine ⟨h.workers.sublist (List.filter_sublist.map _), ?_, ?_, ?_, ?_⟩
  · exact fun row hrow => h.admissible row (hkept hrow).1
  · exact fun row hrow => h.queue row (hkept hrow).1
  · intro row hrow
    obtain ⟨hold, hother⟩ := hkept hrow
    refine (h.records row hold).append fun e he => ?_
    obtain ⟨workerId, hmem, rfl⟩ := List.mem_map.mp he
    exact fun hsame => hother (hsame ▸ hmem)
  · intro workerId r t hlast
    by_cases hmem : workerId ∈ workers
    · have hremoved : .removed workerId ∈ historyOf workerId (workers.map .removed) := by
        simp [historyOf, PresenceEvent.worker, hmem]
      rw [historyOf_append, List.getLast?_append_of_ne_nil _ (List.ne_nil_of_mem hremoved)] at hlast
      obtain ⟨_, _, hevent⟩ :=
        List.mem_map.mp (List.mem_of_mem_filter (List.mem_of_getLast? hlast))
      cases hevent
    · have hother : ∀ e ∈ workers.map PresenceEvent.removed, e.worker ≠ workerId := by
        intro e he
        obtain ⟨other, hother, rfl⟩ := List.mem_map.mp he
        exact fun hsame => hmem (hsame ▸ hother)
      rw [historyOf_append, historyOf_other hother, List.append_nil] at hlast
      obtain ⟨row, hrow, hworker⟩ := h.present workerId r t hlast
      exact ⟨row, by simp [removeWorkers, hrow, hworker, hmem], hworker⟩

theorem Presence.retain {queues' : List QueueRow} (h : Presence queues history rows)
    (hkept : ∀ row ∈ rows, ∃ q ∈ queues', q.id = row.queueId) :
    Presence queues' history rows :=
  ⟨h.workers, h.admissible, hkept, h.records, h.present⟩

theorem presence_empty (queues : List QueueRow) : Presence queues [] [] :=
  ⟨List.nodup_nil, by simp, by simp, by simp, by simp [historyOf]⟩

end WorkerPresence
