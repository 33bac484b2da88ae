import TinyReactor.GrpcClient.Outstanding

/-!
# Faithful delivery of a stream

What `AsyncListenTag` makes of the events of its operations, in whatever way the stream ends. The other calls of the
client, which may be unary ones that end the process, have no part in it.
-/

namespace TinyReactor.GrpcClient

open Transition Wire

/-! ## The history of a stream -/

/-- A successful `Read` of a message with a task. -/
def Event.carriesTask (event : Event) : Bool := event.ok && event.response.task.isSome

/-- The call of the callback for a message. -/
def Event.delivery? (event : Event) : Option (Task × Status) :=
  event.response.task.map fun task ↦ (taskFromProto task, {})

/-- The call of the callback for the final status. -/
def Event.farewell (event : Event) : List (Task × Status) :=
  if event.status.ok then [] else [({}, event.status)]

/-- The events of a stream up to now, with `step_` and the calls of the callback they lead to: one for each message
with a task, up to the first `Read` that fails or brings none, and one more for a final status that is an error. -/
inductive History : ListenStep → List Event → List (Task × Status) → Prop
  | starting : History .start [] []
  | reading (first : Event) (reads : List Event) (hfirst : first.ok = true)
      (hreads : ∀ read ∈ reads, read.carriesTask = true) :
      History .read (first :: reads) (reads.filterMap Event.delivery?)
  | refused (first : Event) (hfirst : first.ok = false) : History .finish [first] []
  | cut (first : Event) (reads : List Event) (last : Event) (hfirst : first.ok = true)
      (hreads : ∀ read ∈ reads, read.carriesTask = true) (hlast : last.carriesTask = false) :
      History .finish (first :: reads ++ [last]) (reads.filterMap Event.delivery?)
  | ended {events : List Event} {calls : List (Task × Status)} (h : History .finish events calls) (finish : Event) :
      History .done (events ++ [finish]) (calls ++ finish.farewell)

/-- The operation that a tag waits for. -/
def ListenStep.opKind : ListenStep → OpKind
  | .start => .startCall
  | .read => .read
  | .finish | .done => .finish

/-- What `Proceed` has done for an event of a stream tag with or without a callback. -/
structure Handles (callback : Bool) (events : List Event) (calls : List (Task × Status)) (outcome : Outcome) :
    Prop where
  passed : outcome.assertionFailed = false
  completion : outcome.completion = none
  keeps : outcome.tag.callback = callback
  next : ∃ step new, outcome.notified = (if callback then new else []) ∧ History step events (calls ++ new) ∧
    (outcome.tag.Streams step ∧ outcome.started = some step.opKind ∨
      step = .done ∧ outcome.tag.machine = .listen .done ∧ outcome.tag.deleted = true ∧ outcome.tag.finishes = 1 ∧
        outcome.started = none)

section Handles

variable {tag : Tag} {events : List Event} {calls : List (Task × Status)}

/-- The three ways in which a stream comes to `Finish`. -/
theorem Tag.Streams.handles_transition {step : ListenStep} (h : tag.Streams step) (hstep : step ≠ .finish)
    (code : StatusCode) (hhistory : History .finish events calls) :
    Handles tag.callback events calls (tag.transitionToFinish code) where
  passed := rfl
  completion := rfl
  keeps := rfl
  next := by
    have hstreams : (tag.transitionToFinish code).tag.Streams .finish := by
      refine ⟨rfl, by decide, h.promise, h.live, ?_⟩
      change tag.finishes + 1 = 1
      rw [h.finishes, if_neg hstep]
    refine ⟨.finish, [], (ite_self _).symm, ?_, .inl ⟨hstreams, rfl⟩⟩
    rw [List.append_nil]
    exact hhistory

theorem Tag.Streams.handles_start (h : tag.Streams .start) (event : Event) :
    Handles tag.callback [event] [] (tag.proceedListen event.ok .start) := by
  unfold Tag.proceedListen
  cases hok : event.ok with
  | false => exact h.handles_transition (by decide) .cancelled (.refused event hok)
  | true =>
    refine ⟨rfl, rfl, rfl, .read, [], (ite_self _).symm, .reading event [] hok (by simp), .inl ⟨?_, rfl⟩⟩
    exact ⟨rfl, by decide, h.promise, h.live, h.finishes⟩

theorem Tag.Streams.handles_read (h : tag.Streams .read) {first event : Event} {reads : List Event}
    (hfirst : first.ok = true) (hreads : ∀ read ∈ reads, read.carriesTask = true)
    (hresponse : tag.response = event.response) :
    Handles tag.callback (first :: reads ++ [event]) (reads.filterMap Event.delivery?)
      (tag.proceedListen event.ok .read) := by
  have hcut (hlast : event.carriesTask = false) (code : StatusCode) :=
    h.handles_transition (by decide) code (.cut first reads event hfirst hreads hlast)
  unfold Tag.proceedListen
  cases hok : event.ok with
  | false => exact hcut (by rw [Event.carriesTask, hok, Bool.false_and]) .cancelled
  | true =>
    simp only [if_true, hresponse]
    cases htask : event.response.task with
    | none => exact hcut (by rw [Event.carriesTask, htask, Option.isSome_none, Bool.and_false]) .ok
    | some task =>
      refine ⟨rfl, rfl, rfl, .read, [(taskFromProto task, {})], rfl, ?_, .inl ⟨?_, rfl⟩⟩
      · have hdelivery : (reads ++ [event]).filterMap Event.delivery? =
            reads.filterMap Event.delivery? ++ [(taskFromProto task, ({} : Status))] := by
          simp [Event.delivery?, htask]
        rw [← hdelivery]
        refine .reading first (reads ++ [event]) hfirst (forall_mem_append_singleton hreads ?_)
        rw [Event.carriesTask, hok, htask]
        rfl
      · exact ⟨h.machine, h.running, h.promise, h.live, h.finishes⟩

theorem Tag.Streams.handles_finish (h : tag.Streams .finish) {event : Event} (hhistory : History .finish events calls)
    (hstatus : tag.status = event.status) :
    Handles tag.callback (events ++ [event]) calls (tag.proceedListen event.ok .finish) where
  passed := rfl
  completion := rfl
  keeps := rfl
  next := by
    refine ⟨.done, event.farewell, ?_, .ended hhistory event, .inr ⟨rfl, rfl, rfl, h.finishes, rfl⟩⟩
    simp only [Tag.proceedListen, Outcome.delete, hstatus, Event.farewell]
    cases tag.callback <;> cases event.status.ok <;> rfl

theorem Tag.receive_callback (tag : Tag) (op : OpKind) (event : Event) :
    (tag.receive op event).callback = tag.callback := by
  unfold Tag.receive
  split <;> rfl

theorem Tag.Streams.receive_finish_status {step : ListenStep} (h : tag.Streams step) {event : Event} :
    (tag.receive .finish event).status = event.status := by
  simp only [Tag.receive, h.machine]

/-- Each event of a stream, handled by the tag that waits for it, continues the history. -/
theorem Tag.Streams.handles {step : ListenStep} (h : tag.Streams step) (hhistory : History step events calls)
    (event : Event) :
    Handles tag.callback (events ++ [event]) calls ((tag.receive step.opKind event).proceed event.ok) := by
  have hreceived := h.receive step.opKind event
  rw [← tag.receive_callback step.opKind event, Tag.proceed, hreceived.machine]
  cases hhistory with
  | starting => exact hreceived.handles_start event
  | reading first reads hfirst hreads => exact hreceived.handles_read hfirst hreads rfl
  | refused first hfirst => exact hreceived.handles_finish (.refused first hfirst) h.receive_finish_status
  | cut first reads last hfirst hreads hlast =>
    exact hreceived.handles_finish (.cut first reads last hfirst hreads hlast) h.receive_finish_status
  | ended hfinish finish => exact absurd rfl h.running

end Handles

/-! ## The stream of one call -/

/-- The calls of the callback of one client call, in order. -/
def Client.callsOf (client : Client) (index : ℕ) : List (Task × Status) :=
  client.notified.filterMap fun notification ↦ if notification.1 = index then some notification.2 else none

/-- The event of the operation was not yet handled. -/
def Client.Awaits (client : Client) (op : Op) : Prop :=
  op ∈ client.outstanding ∨ ∃ event, client.completer = .proceed op event

/-- `Proceed` for the event deletes the tag. -/
def Client.deletesTag (client : Client) (op : Op) (event : Event) : Bool :=
  (client.liveTag op.call).elim false fun (_, tag) ↦ ((tag.receive op.kind event).proceed event.ok).tag.deleted

/-- Where a call of `listen_results` stands, when its tag has handled the given events; each comes with whether the
tag was deleted. -/
inductive Listening (client : Client) (index : ℕ) (call : Call) (shown : List (Event × Bool)) : Prop
  | entered (htag : call.tag = none) (hpc : call.pc = .enter) (hpending : client.pending index = 0)
      (hshown : shown = []) (hcalls : client.callsOf index = [])
  | made {tag : Tag} (htag : call.tag = some tag) (hnew : tag.Streams .start)
      (hcallback : tag.callback = call.callback) (hpc : call.pc = .start none) (hpending : client.pending index = 0)
      (hshown : shown = []) (hcalls : client.callsOf index = [])
  | streams {tag : Tag} {step : ListenStep} {calls : List (Task × Status)} (htag : call.tag = some tag)
      (hstreams : tag.Streams step) (hcallback : tag.callback = call.callback) (hpc : call.pc = .returned none)
      (hpending : client.pending index = 1)
      (hkind : ∀ op, client.Awaits op → op.call = index → op.kind = step.opKind)
      (hhistory : History step (shown.map Prod.fst) calls) (hdeletions : shown.countP Prod.snd = 0)
      (hcalls : client.callsOf index = if call.callback then calls else [])
  | ended {tag : Tag} {calls : List (Task × Status)} (htag : call.tag = some tag)
      (hmachine : tag.machine = .listen .done) (hdeleted : tag.deleted = true) (hfinishes : tag.finishes = 1)
      (hpc : call.pc = .returned none) (hpending : client.pending index = 0)
      (hhistory : History .done (shown.map Prod.fst) calls) (hdeletions : shown.countP Prod.snd = 1)
      (hcalls : client.callsOf index = if call.callback then calls else [])

structure Watched (index : ℕ) (shown : List (Event × Bool)) (client : Client) : Prop where
  known : client.calls.length ≤ index → client.pending index = 0 ∧ shown = [] ∧ client.callsOf index = []
  listening : ∀ call, client.calls[index]? = some call → call.kind = .listen → Listening client index call shown

/-- The step does not concern the call. -/
structure SameFor (index : ℕ) (client next : Client) : Prop where
  call : next.calls[index]? = client.calls[index]?
  length : client.calls.length ≤ next.calls.length
  pending : next.pending index = client.pending index
  awaits : ∀ op, next.Awaits op → op.call = index → client.Awaits op
  callsOf : next.callsOf index = client.callsOf index

variable {client next : Client} {index : ℕ} {shown : List (Event × Bool)}

theorem Listening.of_sameFor {call : Call} (h : Listening client index call shown) (hsame : SameFor index client next) :
    Listening next index call shown := by
  cases h with
  | entered htag hpc hpending hshown hcalls =>
    exact .entered htag hpc (hsame.pending.trans hpending) hshown (hsame.callsOf.trans hcalls)
  | made htag hnew hcallback hpc hpending hshown hcalls =>
    exact .made htag hnew hcallback hpc (hsame.pending.trans hpending) hshown (hsame.callsOf.trans hcalls)
  | streams htag hstreams hcallback hpc hpending hkind hhistory hdeletions hcalls =>
    refine .streams htag hstreams hcallback hpc (hsame.pending.trans hpending) ?_ hhistory hdeletions
      (hsame.callsOf.trans hcalls)
    exact fun op hawaits hop ↦ hkind op (hsame.awaits op hawaits hop) hop
  | ended htag hmachine hdeleted hfinishes hpc hpending hhistory hdeletions hcalls =>
    exact .ended htag hmachine hdeleted hfinishes hpc (hsame.pending.trans hpending) hhistory hdeletions
      (hsame.callsOf.trans hcalls)

theorem Watched.of_sameFor (h : Watched index shown client) (hsame : SameFor index client next) :
    Watched index shown next where
  known hle := by
    rw [hsame.pending, hsame.callsOf]
    exact h.known (Nat.le_trans hsame.length hle)
  listening call hcall hkind := by
    rw [hsame.call] at hcall
    exact (h.listening call hcall hkind).of_sameFor hsame

theorem sameFor_crash : SameFor index client client.crash :=
  ⟨rfl, Nat.le_refl _, rfl, fun _ hawaits _ ↦ hawaits, rfl⟩

theorem mem_outstanding_update {other : ℕ} {call : Call} {started : Option OpKind} {op : Op}
    (h : op ∈ (client.update other call started).outstanding) :
    op ∈ client.outstanding ∨ op.call = other ∧ some op.kind = started := by
  rcases List.mem_append.mp h with hold | hnew
  · exact .inl hold
  · obtain ⟨kind, hkind, rfl⟩ := Option.map_eq_some_iff.mp (Option.mem_toList.mp hnew)
    exact .inr ⟨rfl, hkind.symm⟩

theorem awaits_update {other : ℕ} {call : Call} {started : Option OpKind} {op : Op}
    (h : (client.update other call started).Awaits op) :
    client.Awaits op ∨ op.call = other ∧ some op.kind = started := by
  rcases h with hmem | hheld
  · rcases mem_outstanding_update hmem with hold | hnew
    · exact .inl (.inl hold)
    · exact .inr hnew
  · exact .inl (.inr hheld)

theorem sameFor_update {other : ℕ} (hne : other ≠ index) (call : Call) (started : Option OpKind) :
    SameFor index client (client.update other call started) where
  call := List.getElem?_set_ne hne
  length := by rw [Client.update, List.length_set]
  pending := by rw [pending_update, if_neg hne, Nat.add_zero]
  awaits op hawaits hop := by
    rcases awaits_update hawaits with hold | ⟨hother, -⟩
    · exact hold
    · exact absurd (hother.symm.trans hop) hne
  callsOf := rfl

theorem callsOf_notify (other : ℕ) (new : List (Task × Status)) (promises : List (Option Completion)) :
    Client.callsOf { next with promises, notified := next.notified ++ new.map (Prod.mk other) } index =
      next.callsOf index ++ if other = index then new else [] := by
  simp only [Client.callsOf, List.filterMap_append, List.filterMap_map]
  congr 1
  by_cases heq : other = index <;> simp [heq]

/-- Notifications of another call, and promises, do not concern the call either. -/
theorem SameFor.notify (h : SameFor index client next) {other : ℕ} (hne : other ≠ index) (new : List (Task × Status))
    (promises : List (Option Completion)) :
    SameFor index client { next with promises, notified := next.notified ++ new.map (Prod.mk other) } where
  call := h.call
  length := h.length
  pending := h.pending
  awaits := h.awaits
  callsOf := by rw [callsOf_notify, if_neg hne, List.append_nil, h.callsOf]

theorem SameFor.promise (h : SameFor index client next) (promises : List (Option Completion)) :
    SameFor index client { next with promises } :=
  ⟨h.call, h.length, h.pending, h.awaits, h.callsOf⟩

theorem sameFor_enter {other : ℕ} (hne : other ≠ index) (call : Call) :
    SameFor index client (client.enter other call) := by
  unfold Client.enter
  split
  · cases call.callback with
    | false => exact (sameFor_update hne _ _).notify hne [] _
    | true => exact (sameFor_update hne _ _).notify hne [_] _
  · exact (sameFor_update hne _ _).promise _
  · exact (sameFor_update hne _ _).promise _
  · exact (sameFor_update hne _ _).promise _
  · exact sameFor_update hne _ _
  · exact sameFor_crash

theorem sameFor_advance {other : ℕ} (hne : other ≠ index) {call : Call} (hstep : client.advance other call = some next) :
    SameFor index client next := by
  unfold Client.advance at hstep
  split at hstep
  · cases hstep
    exact sameFor_enter hne call
  · split at hstep <;> cases hstep
    all_goals exact sameFor_update hne _ _
  · cases hstep
    exact sameFor_update hne _ _
  · cases hstep
    exact sameFor_crash
  · cases hstep

theorem sameFor_destroy (hstep : client.destroy = some next) : SameFor index client next := by
  obtain ⟨shutdown, queueShutdown, destructor, -, rfl⟩ := destroy_frame hstep
  exact ⟨rfl, Nat.le_refl _, rfl, fun _ hawaits _ ↦ hawaits, rfl⟩

/-- The thread of `CompleteRpc` takes an event, or does not. -/
theorem sameFor_complete (h : Completes client next) (hproceed : ∀ op event, client.completer ≠ .proceed op event) :
    SameFor index client next := by
  have hpending := h.pending_eq hproceed index
  cases h with
  | proceeds hcompleter => exact absurd hcompleter (hproceed _ _)
  | takes hcompleter hmem =>
    refine ⟨rfl, Nat.le_refl _, hpending, fun op hawaits _ ↦ .inl ?_, rfl⟩
    rcases hawaits with hold | ⟨event, hheld⟩
    · exact List.mem_of_mem_erase hold
    · cases hheld
      exact hmem
  | tests hcompleter =>
    refine ⟨rfl, Nat.le_refl _, hpending, fun op hawaits _ ↦ .inl ?_, rfl⟩
    rcases hawaits with hold | ⟨event, hheld⟩
    · exact hold
    · simp only at hheld
      split at hheld <;> cases hheld
  | ends | waits =>
    refine ⟨rfl, Nat.le_refl _, hpending, fun op hawaits _ ↦ .inl ?_, rfl⟩
    rcases hawaits with hold | ⟨event, hheld⟩
    · exact hold
    · cases hheld

theorem sameFor_proceeds {op : Op} {event : Event} (hcompleter : client.completer = .proceed op event)
    (h : Proceeds client op event next) (hne : op.call ≠ index) : SameFor index client next := by
  cases h with
  | crash => exact sameFor_crash
  | moves hcall htag hlive houtcome hpassed hfulfil =>
    rename_i call tag outcome promises
    have hupdate : SameFor index client (client.update op.call { call with tag := some outcome.tag } outcome.started) :=
      sameFor_update hne _ _
    have hsame := hupdate.notify hne outcome.notified promises
    refine ⟨hsame.call, hsame.length, ?_, ?_, hsame.callsOf⟩
    · have hheld : client.completer.holds index = false := by
        rw [hcompleter]
        exact beq_eq_false_iff_ne.mpr hne
      have hpending := hsame.pending
      simp only [Client.pending, Client.update, hheld] at hpending ⊢
      exact hpending
    · intro other hawaits hother
      rcases hawaits with hold | ⟨_, hheld⟩
      · exact hsame.awaits other (.inl hold) hother
      · cases hheld

/-! ## The steps of the stream -/

theorem Client.pending_pos {op : Op} {event : Event} (hcompleter : client.completer = .proceed op event) :
    0 < client.pending op.call := by
  simp [Client.pending, hcompleter, CompleterPc.holds]

/-- While the event of its only operation is being handled, the call has none outstanding. -/
theorem Client.not_mem_outstanding {op other : Op} {event : Event} (hcompleter : client.completer = .proceed op event)
    (hpending : client.pending op.call = 1) (hother : other ∈ client.outstanding) : other.call ≠ op.call := by
  intro hcall
  have hpos : 0 < client.outstanding.countP fun op' ↦ op'.call == op.call :=
    List.countP_pos_iff.mpr ⟨other, hother, beq_iff_eq.mpr hcall⟩
  rw [Client.pending, hcompleter, CompleterPc.holds, beq_self_eq_true, Bool.toNat_true] at hpending
  omega

/-- `CompleteRpc` hands the tag the event of its only operation. -/
theorem Listening.proceed {call : Call} {op : Op} {event : Event} (h : Listening client op.call call shown)
    (hcall : client.calls[op.call]? = some call) (hcompleter : client.completer = .proceed op event) :
    ∃ call', (client.proceed op event).calls[op.call]? = some call' ∧ call'.kind = call.kind ∧
      Listening (client.proceed op event) op.call call' (shown ++ [(event, client.deletesTag op event)]) := by
  have hpos := client.pending_pos hcompleter
  cases h with
  | streams htag hstreams hcallback hpc hpending hkind hhistory hdeletions hcalls =>
    rename_i tag step calls
    have hop := hkind op (.inr ⟨event, hcompleter⟩) rfl
    have hhandles := hstreams.handles hhistory event
    rw [← hop] at hhandles
    generalize houtcome : (tag.receive op.kind event).proceed event.ok = outcome at hhandles
    have hdeletes : client.deletesTag op event = outcome.tag.deleted := by
      simp [Client.deletesTag, Client.liveTag, hcall, htag, hstreams.live, houtcome]
    have hproceed := client.proceed_eq hcall htag hstreams.live houtcome hhandles.completion hhandles.passed
    generalize client.proceed op event = after at hproceed ⊢
    obtain ⟨hcalls', houtstanding, hnext, hnotified⟩ :
        after.calls = client.calls.set op.call { call with tag := some outcome.tag } ∧
          after.outstanding = (client.update op.call call outcome.started).outstanding ∧ after.completer = .test ∧
          after.callsOf op.call = client.callsOf op.call ++ outcome.notified := by
      subst hproceed
      refine ⟨rfl, rfl, rfl, (callsOf_notify op.call outcome.notified client.promises).trans ?_⟩
      rw [if_pos rfl]
    have hcount := pending_proceed hcompleter houtstanding hnext op.call
    rw [if_pos rfl, if_pos rfl, hpending] at hcount
    obtain ⟨step', new, hnew, hhistory', hmove⟩ := hhandles.next
    have hcallback' : outcome.tag.callback = call.callback := hhandles.keeps.trans hcallback
    have hcallsOf : after.callsOf op.call = if call.callback then calls ++ new else [] := by
      rw [hnotified, hcalls, hnew, hcallback]
      cases call.callback <;> rfl
    have hevents : (shown ++ [(event, client.deletesTag op event)]).map Prod.fst = shown.map Prod.fst ++ [event] := by
      rw [List.map_append, List.map_singleton]
    have hdeleted' : (shown ++ [(event, client.deletesTag op event)]).countP Prod.snd = outcome.tag.deleted.toNat := by
      rw [countP_append_singleton, hdeletions, hdeletes, Nat.zero_add]
    rw [← hevents] at hhistory'
    refine ⟨{ call with tag := some outcome.tag }, ?_, rfl, ?_⟩
    · rw [hcalls', List.getElem?_set_self (lt_length_of_getElem? hcall)]
    · rcases hmove with ⟨hstreams', hstarted⟩ | ⟨rfl, hmachine, hdeleted, hfinishes, hstarted⟩
      · rw [hstarted] at hcount houtstanding
        rw [hstreams'.live, Bool.toNat_false] at hdeleted'
        refine .streams rfl hstreams' hcallback' hpc (Nat.add_right_cancel hcount) ?_ hhistory' hdeleted' hcallsOf
        intro other hawaits hother
        rcases hawaits with hmem | ⟨_, hheld⟩
        · rw [houtstanding] at hmem
          rcases mem_outstanding_update hmem with hold | ⟨-, hkind'⟩
          · exact absurd hother (client.not_mem_outstanding hcompleter hpending hold)
          · exact Option.some.inj hkind'
        · cases hnext.symm.trans hheld
      · rw [hstarted] at hcount
        rw [hdeleted, Bool.toNat_true] at hdeleted'
        exact .ended rfl hmachine hdeleted hfinishes hpc (Nat.add_right_cancel hcount) hhistory' hdeleted' hcallsOf
  | entered htag hpc hpending => omega
  | made htag hnew hcallback hpc hpending => omega
  | ended htag hmachine hdeleted hfinishes hpc hpending => omega

theorem Client.not_awaits {op : Op} (hpending : client.pending index = 0) (h : client.Awaits op) :
    op.call ≠ index := by
  rintro rfl
  rcases h with hmem | ⟨event, hcompleter⟩
  · have hpos : 0 < client.outstanding.countP fun op' ↦ op'.call == op.call :=
      List.countP_pos_iff.mpr ⟨op, hmem, beq_self_eq_true _⟩
    rw [Client.pending] at hpending
    omega
  · have hpos := client.pending_pos hcompleter
    omega

/-- `listen_results` makes its tag, and starts the stream with it. -/
theorem Listening.advance {call : Call} (h : Listening client index call shown) (hkind : call.kind = .listen)
    (hcall : client.calls[index]? = some call) (hstep : client.advance index call = some next) :
    ∃ call', next.calls[index]? = some call' ∧ Listening next index call' shown := by
  have hself (call' : Call) (started : Option OpKind) :
      (client.update index call' started).calls[index]? = some call' :=
    List.getElem?_set_self (lt_length_of_getElem? hcall)
  cases h with
  | entered htag hpc hpending hshown hcalls =>
    simp only [Client.advance, hpc, Option.some.injEq] at hstep
    subst hstep
    cases hstub : client.stub with
    | false =>
      simp only [Client.enter, hkind, hstub]
      exact ⟨call, hcall, .entered htag hpc hpending hshown hcalls⟩
    | true =>
      simp only [Client.enter, hkind, hstub]
      refine ⟨_, hself _ _, .made rfl ⟨rfl, by decide, rfl, rfl, rfl⟩ rfl rfl ?_ hshown hcalls⟩
      rw [pending_update, if_pos rfl, hpending]
      rfl
  | made htag hnew hcallback hpc hpending hshown hcalls =>
    simp only [Client.advance, hpc, hkind, Option.some.injEq] at hstep
    subst hstep hshown
    refine ⟨_, hself _ _, .streams htag hnew hcallback rfl ?_ ?_ .starting rfl (hcalls.trans (ite_self _).symm)⟩
    · rw [pending_update, if_pos rfl, hpending]
      rfl
    · intro op hawaits hop
      rcases awaits_update hawaits with hold | ⟨-, hnewest⟩
      · exact absurd hop (client.not_awaits hpending hold)
      · exact Option.some.inj hnewest
  | streams htag hstreams hcallback hpc => simp [Client.advance, hpc] at hstep
  | ended htag hmachine hdeleted hfinishes hpc => simp [Client.advance, hpc] at hstep

/-- The event of an operation of the call that the step hands to `Proceed`, and whether that deletes the tag. -/
def handled (index : ℕ) (client : Client) : Action → Option (Event × Bool)
  | .complete _ =>
      match client.completer with
      | .proceed op event => if op.call = index then some (event, client.deletesTag op event) else none
      | _ => none
  | _ => none

/-- The call keeps its method. -/
def KeepsKind (index : ℕ) (client next : Client) : Prop :=
  next.calls.length = client.calls.length ∧ ∀ call call', client.calls[index]? = some call →
    next.calls[index]? = some call' → call'.kind = call.kind

theorem keepsKind_refl (hcalls : next.calls = client.calls) : KeepsKind index client next := by
  refine ⟨by rw [hcalls], fun call call' hcall hcall' ↦ ?_⟩
  rw [hcalls, hcall] at hcall'
  cases hcall'
  rfl

theorem keepsKind_set {call moved : Call} (hcall : client.calls[index]? = some call)
    (hcalls : next.calls = client.calls.set index moved) (hkind : moved.kind = call.kind) :
    KeepsKind index client next := by
  refine ⟨by rw [hcalls, List.length_set], fun old new hold hnew ↦ ?_⟩
  rw [hcalls, List.getElem?_set_self (lt_length_of_getElem? hcall)] at hnew
  cases hnew
  cases hcall.symm.trans hold
  exact hkind

theorem keepsKind_advance {call : Call} (hcall : client.calls[index]? = some call)
    (hstep : client.advance index call = some next) : KeepsKind index client next := by
  unfold Client.advance at hstep
  split at hstep
  · cases hstep
    unfold Client.enter
    split
    case h_6 => exact keepsKind_refl rfl
    all_goals exact keepsKind_set hcall rfl rfl
  · split at hstep <;> cases hstep
    all_goals exact keepsKind_set hcall rfl rfl
  · cases hstep
    exact keepsKind_set hcall rfl rfl
  · cases hstep
    exact keepsKind_refl rfl
  · cases hstep

theorem keepsKind_proceeds {op : Op} {event : Event} (h : Proceeds client op event next) :
    KeepsKind op.call client next := by
  cases h with
  | crash => exact keepsKind_refl rfl
  | moves hcall => exact keepsKind_set hcall rfl rfl

/-- A step of the call itself: only that of a stream is to be checked. -/
theorem Watched.of_own {shown' : List (Event × Bool)} {call : Call} (hcall : client.calls[index]? = some call)
    (hkeeps : KeepsKind index client next)
    (hlistening : call.kind = .listen → ∃ call', next.calls[index]? = some call' ∧ Listening next index call' shown') :
    Watched index shown' next where
  known hle := by
    rw [hkeeps.1] at hle
    exact absurd (lt_length_of_getElem? hcall) (Nat.not_lt.mpr hle)
  listening call' hcall' hkind := by
    obtain ⟨moved, hmoved, h⟩ := hlistening ((hkeeps.2 call call' hcall hcall').symm.trans hkind)
    cases hmoved.symm.trans hcall'
    exact h

theorem Watched.advance (h : Watched index shown client) {other : ℕ} {call : Call}
    (hcall : client.calls[other]? = some call) (hstep : client.advance other call = some next) :
    Watched index shown next := by
  by_cases hne : other = index
  · subst hne
    refine Watched.of_own hcall (keepsKind_advance hcall hstep) fun hkind ↦ ?_
    exact (h.listening call hcall hkind).advance hkind hcall hstep
  · exact h.of_sameFor (sameFor_advance hne hstep)

theorem Watched.proceed (h : Watched index shown client) {op : Op} {event : Event}
    (hcompleter : client.completer = .proceed op event) :
    Watched index (shown ++ (if op.call = index then some (event, client.deletesTag op event) else none).toList)
      (client.proceed op event) := by
  have hproceeds : Proceeds client op event (client.proceed op event) := proceeds_proceed op event
  by_cases hne : op.call = index
  · subst hne
    rw [if_pos rfl, Option.toList_some]
    cases hcall : client.calls[op.call]? with
    | none =>
      have hzero := (h.known (List.getElem?_eq_none_iff.mp hcall)).1
      have hpos := client.pending_pos hcompleter
      omega
    | some call =>
      refine Watched.of_own hcall (keepsKind_proceeds hproceeds) fun hkind ↦ ?_
      obtain ⟨call', hcall', -, hlistening⟩ := (h.listening call hcall hkind).proceed hcall hcompleter
      exact ⟨call', hcall', hlistening⟩
  · rw [if_neg hne, Option.toList_none, List.append_nil]
    exact h.of_sameFor (sameFor_proceeds hcompleter hproceeds hne)

theorem Watched.call (h : Watched index shown client) (kind : CallKind) (callback : Bool) :
    Watched index shown { client with calls := client.calls ++ [{ kind, callback }] } where
  known hle := by
    rw [List.length_append, List.length_singleton] at hle
    exact h.known (Nat.le_of_succ_le hle)
  listening call hcall hkind := by
    rcases of_getElem?_append_singleton hcall with hold | ⟨rfl, rfl⟩
    · have hsame : SameFor index client { client with calls := client.calls ++ [{ kind, callback }] } :=
        ⟨hcall.trans hold.symm, by simp, rfl, fun _ hawaits _ ↦ hawaits, rfl⟩
      exact (h.listening call hold hkind).of_sameFor hsame
    · obtain ⟨hpending, hshown, hcalls⟩ := h.known (Nat.le_refl _)
      exact .entered rfl rfl hpending hshown hcalls

theorem Watched.complete (h : Watched index shown client) (hstep : Completes client next) (status : NextStatus) :
    Watched index (shown ++ (handled index client (.complete status)).toList) next := by
  have hsame (hproceed : ∀ op event, client.completer ≠ .proceed op event) :
      Watched index (shown ++ (handled index client (.complete status)).toList) next := by
    have hnone : handled index client (.complete status) = none := by
      cases hcompleter : client.completer with
      | proceed op event => exact absurd hcompleter (hproceed op event)
      | _ => simp [handled, hcompleter]
    rw [hnone, Option.toList_none, List.append_nil]
    exact h.of_sameFor (sameFor_complete hstep hproceed)
  cases hstep with
  | proceeds hcompleter =>
    simp only [handled, hcompleter]
    exact h.proceed hcompleter
  | tests hcompleter | takes hcompleter _ | ends hcompleter _ _ | waits hcompleter =>
    exact hsame (by simp [hcompleter])

theorem Watched.step {action : Action} (h : Watched index shown client) (hstep : step client action = some next) :
    Watched index (shown ++ (handled index client action).toList) next := by
  have hnil : shown ++ ([] : List (Event × Bool)) = shown := List.append_nil shown
  cases move_of_step hstep with
  | call => exact hnil.symm ▸ h.call _ _
  | advance hcall hadvance => exact hnil.symm ▸ h.advance hcall hadvance
  | complete hcomplete => exact h.complete hcomplete _
  | destroy hdestroy => exact hnil.symm ▸ h.of_sameFor (sameFor_destroy hdestroy)

/-! ## Whole runs -/

theorem watched_create (stub : Bool) (index : ℕ) : Watched index [] (Client.create stub) where
  known _ := ⟨rfl, rfl, rfl⟩
  listening call hcall := by simp [Client.create] at hcall

theorem watched_of_run {stub : Bool} {actions : List Action} (hrun : run step (Client.create stub) actions = some client)
    (index : ℕ) : Watched index (collect step (handled index) (Client.create stub) actions) client := by
  have hok : Meets step (fun _ _ ↦ True) (Client.create stub) actions := Meets.of_forall_mem fun _ _ _ ↦ trivial
  have hwatched := collect_invariant (f := handled index) (I := Watched index)
    (fun _ _ _ _ h _ hstep ↦ h.step hstep) hok (watched_create stub index) hrun
  exact hwatched

/-- What a returned call of `listen_results` owes its user, given the events its tag has handled: the history of the
stream with its calls of the callback, one operation outstanding until the tag is deleted, one `Finish`, one deletion,
and no event that fails the assertion. -/
structure DeliversStream (client : Client) (index : ℕ) (call : Call) (shown : List (Event × Bool)) : Prop where
  history : ∃ tag step calls, call.tag = some tag ∧ tag.machine = .listen step ∧
    History step (shown.map Prod.fst) calls ∧ client.callsOf index = (if call.callback then calls else []) ∧
    tag.finishes = (if step = .finish ∨ step = .done then 1 else 0) ∧ (tag.deleted = true ↔ step = .done)
  operation : ∀ tag, call.tag = some tag → client.pending index = if tag.deleted then 0 else 1
  deletions : ∀ tag, call.tag = some tag → shown.countP Prod.snd = if tag.deleted then 1 else 0
  passes : ∀ op event, client.completer = .proceed op event → op.call = index →
    ∃ tag, client.liveTag index = some (call, tag) ∧
      ((tag.receive op.kind event).proceed event.ok).assertionFailed = false

theorem Listening.delivers {call : Call} (h : Listening client index call shown)
    (hcall : client.calls[index]? = some call) (hreturned : call.pc.isReturned = true) :
    DeliversStream client index call shown := by
  cases h with
  | entered htag hpc =>
    rw [hpc] at hreturned
    cases hreturned
  | made htag hnew hcallback hpc =>
    rw [hpc] at hreturned
    cases hreturned
  | streams htag hstreams hcallback hpc hpending hkind hhistory hdeletions hcalls =>
    rename_i tag step calls
    constructor
    case history =>
      refine ⟨tag, step, calls, htag, hstreams.machine, hhistory, hcalls, ?_, ?_⟩
      · rw [hstreams.finishes]
        simp [hstreams.running]
      · simp [hstreams.live, hstreams.running]
    case operation =>
      intro tag' htag'
      cases htag.symm.trans htag'
      rw [hpending, hstreams.live]
      rfl
    case deletions =>
      intro tag' htag'
      cases htag.symm.trans htag'
      rw [hdeletions, hstreams.live]
      rfl
    case passes =>
      rintro op event hcompleter rfl
      refine ⟨tag, by simp [Client.liveTag, hcall, htag, hstreams.live], ?_⟩
      rw [hkind op (.inr ⟨event, hcompleter⟩) rfl]
      exact (hstreams.handles hhistory event).passed
  | ended htag hmachine hdeleted hfinishes hpc hpending hhistory hdeletions hcalls =>
    rename_i tag calls
    constructor
    case history =>
      exact ⟨tag, .done, calls, htag, hmachine, hhistory, hcalls, hfinishes, iff_of_true hdeleted rfl⟩
    case operation =>
      intro tag' htag'
      cases htag.symm.trans htag'
      rw [hpending, hdeleted, if_pos rfl]
    case deletions =>
      intro tag' htag'
      cases htag.symm.trans htag'
      rw [hdeletions, hdeleted, if_pos rfl]
    case passes =>
      rintro op event hcompleter rfl
      have hpos := client.pending_pos hcompleter
      omega

/-- Every stream is delivered faithfully, in every run of the client. -/
theorem stream_delivered (stub : Bool) (actions : List Action) (final : Client) (index : ℕ) (call : Call)
    (hrun : run step (Client.create stub) actions = some final) (hcall : final.calls[index]? = some call)
    (hkind : call.kind = .listen) (hreturned : call.pc.isReturned = true) :
    DeliversStream final index call (collect step (handled index) (Client.create stub) actions) :=
  ((watched_of_run hrun index).listening call hcall hkind).delivers hcall hreturned

/-- A stream with one message that breaks off, and whose final status is an error. -/
def brokenStream : List Action :=
  [.call .listen true, .advance 0, .advance 0,
    .complete .timeout, .complete (.gotEvent ⟨0, .startCall⟩ { ok := true }), .complete .timeout,
    .complete .timeout, .complete (.gotEvent ⟨0, .read⟩ { ok := true, response := { task := some {} } }),
    .complete .timeout, .complete .timeout, .complete (.gotEvent ⟨0, .read⟩ { ok := false }), .complete .timeout,
    .complete .timeout, .complete (.gotEvent ⟨0, .finish⟩ { ok := true, status := ⟨.unavailable, "gone"⟩ }),
    .complete .timeout]

theorem stream_delivered_broken :
    ∃ final call, run step (Client.create true) brokenStream = some final ∧ final.calls[0]? = some call ∧
      DeliversStream final 0 call (collect step (handled 0) (Client.create true) brokenStream) ∧
      (final.callsOf 0).map (fun notified ↦ notified.2.code) = [.ok, .unavailable] ∧ final.pending 0 = 0 := by
  have hshape : (run step (Client.create true) brokenStream).map (fun client ↦
      (client.calls.map (fun call ↦ (call.kind, call.pc)),
        (client.callsOf 0).map (fun notified ↦ notified.2.code), client.pending 0)) =
      some ([(.listen, .returned none)], [.ok, .unavailable], 0) := by
    decide +kernel
  obtain ⟨final, hrun, hshape⟩ := Option.map_eq_some_iff.mp hshape
  obtain ⟨hcalls, hrest⟩ := Prod.mk.inj hshape
  obtain ⟨hcodes, hpending⟩ := Prod.mk.inj hrest
  obtain ⟨call, hcall, hpair⟩ : ∃ call, final.calls[0]? = some call ∧
      (call.kind, call.pc) = (.listen, .returned none) := by
    apply Option.map_eq_some_iff.mp
    rw [← List.getElem?_map, hcalls]
    rfl
  obtain ⟨hkind, hpc⟩ := Prod.mk.inj hpair
  have hreturned : call.pc.isReturned = true := by
    rw [hpc]
    rfl
  exact ⟨final, call, hrun, hcall, stream_delivered true brokenStream final 0 call hrun hcall hkind hreturned, hcodes,
    hpending⟩

end TinyReactor.GrpcClient
