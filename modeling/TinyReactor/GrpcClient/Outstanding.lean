import TinyReactor.GrpcClient.Moves
import TinyReactor.Transition.ThreadTable

/-!
# Operations outstanding for a tag

A tag stays alive on the events of its own operations: between the return of the client method and its
deletion it needs one operation outstanding, no more and no less. `listen_results` starts the stream with
its tag and keeps to this. The unary methods do not: `submit_task_async` only calls `StartCall()`, which
posts nothing, and `cancel_task_async` and `query_status_async` start `Finish` while `step_` is still
`kLaunch`, and then read the future through the pointer that they have just released.
-/

namespace TinyReactor.GrpcClient

open Transition

/-- `CompleteRpc` has taken an event of the tag and has not handled it yet. -/
def CompleterPc.holds (index : ℕ) : CompleterPc → Bool
  | .proceed op _ => op.call == index
  | _ => false

/-- The operations of the tag whose event was not handled yet. -/
def Client.pending (client : Client) (index : ℕ) : ℕ :=
  client.outstanding.countP (fun op ↦ op.call == index) + (client.completer.holds index).toNat

/-- The process is running; a tag whose client method has returned has one operation outstanding until its
deletion; no reader is finished twice; the future that was returned is the one of the tag's promise. -/
structure OneOutstanding (client : Client) : Prop where
  running : client.crashed = false
  one : ∀ index call tag, client.calls[index]? = some call → call.pc.isReturned = true → call.tag = some tag →
    tag.deleted = false → client.pending index = 1
  finishes : ∀ call ∈ client.calls, ∀ tag ∈ call.tag, tag.finishes ≤ 1
  future : ∀ call ∈ client.calls, ∀ tag ∈ call.tag, ∀ future, call.pc = .returned (some future) →
    tag.promise = some future

/-- No unary call reaches the stub, and no stream is opened without one. -/
def OnlyListens (client : Client) : Action → Prop
  | .call kind _ => (kind = .listen ∧ client.stub = true) ∨ (kind = .submit ∧ client.stub = false)
  | _ => True

instance (client : Client) : (action : Action) → Decidable (OnlyListens client action)
  | .call kind _ => inferInstanceAs (Decidable
      ((kind = .listen ∧ client.stub = true) ∨ (kind = .submit ∧ client.stub = false)))
  | .advance _ | .complete _ | .destroy => .isTrue trivial

variable {client next : Client}

/-! ## Counting operations -/

theorem pending_update (index : ℕ) (call : Call) (started : Option OpKind) (other : ℕ) :
    (client.update index call started).pending other =
      client.pending other + if index = other then started.isSome.toNat else 0 := by
  have hcount : (started.map (Op.mk index)).toList.countP (fun op ↦ op.call == other) =
      if index = other then started.isSome.toNat else 0 := by
    cases started with
    | none => simp
    | some kind => simp [List.countP_cons]
  simp only [Client.pending, Client.update, List.countP_append, hcount]
  omega

/-- Taking an event from the queue does not change what is outstanding. -/
theorem pending_take {op : Op} {event : Event} (hmem : op ∈ client.outstanding)
    (hcompleter : client.completer = .next) (other : ℕ) :
    Client.pending { client with
      outstanding := client.outstanding.erase op, completer := .proceed op event } other =
      client.pending other := by
  have hperm := (List.perm_cons_erase hmem).countP_eq fun op ↦ op.call == other
  rw [List.countP_cons] at hperm
  simp only [Client.pending, hcompleter, CompleterPc.holds, Bool.toNat_false, hperm]
  cases op.call == other <;> rfl

/-- Only `Proceed` changes what is outstanding. -/
theorem Completes.pending_eq (h : Completes client next)
    (hproceed : ∀ op event, client.completer ≠ .proceed op event) (index : ℕ) :
    next.pending index = client.pending index := by
  cases h with
  | takes hcompleter hmem => exact pending_take hmem hcompleter index
  | proceeds hcompleter => exact absurd hcompleter (hproceed _ _)
  | tests hcompleter =>
    simp only [Client.pending, hcompleter]
    split <;> rfl
  | ends hcompleter _ _ | waits hcompleter =>
    simp only [Client.pending, hcompleter]
    rfl

/-- What `Proceed` leaves outstanding, whatever else of the client it changes. -/
theorem pending_proceed {op : Op} {event : Event} {call : Call} {started : Option OpKind}
    (hcompleter : client.completer = .proceed op event)
    (houtstanding : next.outstanding = (client.update op.call call started).outstanding)
    (hnext : next.completer = .test) (other : ℕ) :
    next.pending other + (if op.call = other then 1 else 0) =
      client.pending other + if op.call = other then started.isSome.toNat else 0 := by
  have hholds : (client.completer.holds other).toNat = if op.call = other then 1 else 0 := by
    rw [hcompleter]
    simp only [CompleterPc.holds]
    by_cases h : op.call = other <;> simp [h]
  have hpending : next.pending other + (if op.call = other then 1 else 0) =
      (client.update op.call call started).pending other := by
    simp only [Client.pending, houtstanding, hnext]
    rw [← hholds]
    rfl
  rw [hpending, pending_update]

/-! ## The life of a stream -/

/-- A live stream tag whose call has returned: `step_` says whether `Finish` was started. -/
structure Tag.Streams (tag : Tag) (step : ListenStep) : Prop where
  machine : tag.machine = .listen step
  running : step ≠ .done
  promise : tag.promise = none
  live : tag.deleted = false
  finishes : tag.finishes = if step = .finish then 1 else 0

/-- Where a call may stand when all calls are as they should be, and how many operations its tag has. -/
inductive Served (stub : Bool) : Call → ℕ → Prop
  | refused {call : Call} (hkind : call.kind = .submit) (hstub : stub = false) (htag : call.tag = none)
      (hpc : call.pc = .enter ∨ call.pc.isReturned = true) : Served stub call 0
  | entered {call : Call} (hkind : call.kind = .listen) (hstub : stub = true) (htag : call.tag = none)
      (hpc : call.pc = .enter) : Served stub call 0
  | made {call : Call} {tag : Tag} (hkind : call.kind = .listen) (htag : call.tag = some tag)
      (htag' : tag.Streams .start) (hpc : call.pc = .start none) : Served stub call 0
  | streams {call : Call} {tag : Tag} {step : ListenStep} (htag : call.tag = some tag) (htag' : tag.Streams step)
      (hpc : call.pc = .returned none) : Served stub call 1
  | ended {call : Call} {tag : Tag} (htag : call.tag = some tag) (hdeleted : tag.deleted = true)
      (hfinishes : tag.finishes = 1) (hpc : call.pc = .returned none) : Served stub call 0

/-- What gRPC writes does not concern the protocol. -/
theorem Tag.Streams.receive {tag : Tag} {step : ListenStep} (h : tag.Streams step) (op : OpKind) (event : Event) :
    (tag.receive op event).Streams step := by
  cases op with
  | startCall => exact h
  | read => exact ⟨h.machine, h.running, h.promise, h.live, h.finishes⟩
  | finish =>
    simp only [Tag.receive, h.machine]
    exact ⟨rfl, h.running, h.promise, h.live, h.finishes⟩

/-- A stream tag starts the next operation or, on the event of its `Finish`, ends. -/
theorem Tag.Streams.proceed {tag : Tag} {step : ListenStep} (h : tag.Streams step) (ok : Bool) :
    (tag.proceed ok).assertionFailed = false ∧ (tag.proceed ok).completion = none ∧
      (((tag.proceed ok).started.isSome = true ∧ ∃ step', (tag.proceed ok).tag.Streams step') ∨
        ((tag.proceed ok).started = none ∧ (tag.proceed ok).tag.deleted = true ∧
          (tag.proceed ok).tag.finishes = 1)) := by
  have htransition (hfinish : step ≠ .finish) (code : StatusCode) :
      (tag.transitionToFinish code).tag.Streams .finish := by
    refine ⟨rfl, by decide, h.promise, h.live, ?_⟩
    change tag.finishes + 1 = 1
    rw [h.finishes, if_neg hfinish]
  have hread (response : Response) (hfinish : step ≠ .finish) :
      Tag.Streams { tag with machine := .listen .read, response } .read := by
    refine ⟨rfl, by decide, h.promise, h.live, ?_⟩
    rw [h.finishes, if_neg hfinish, if_neg (by decide)]
  simp only [Tag.proceed, h.machine]
  cases step with
  | start =>
    cases ok with
    | false => exact ⟨rfl, rfl, .inl ⟨rfl, _, htransition (by decide) _⟩⟩
    | true => exact ⟨rfl, rfl, .inl ⟨rfl, _, hread tag.response (by decide)⟩⟩
  | read =>
    cases ok with
    | false => exact ⟨rfl, rfl, .inl ⟨rfl, _, htransition (by decide) _⟩⟩
    | true =>
      simp only [Tag.proceedListen, if_true]
      split
      · refine ⟨rfl, rfl, .inl ⟨rfl, .read, ?_⟩⟩
        have hstay := hread {} (by decide)
        rwa [← h.machine] at hstay
      · exact ⟨rfl, rfl, .inl ⟨rfl, _, htransition (by decide) _⟩⟩
  | finish => exact ⟨rfl, rfl, .inr ⟨rfl, rfl, h.finishes⟩⟩
  | done => exact absurd rfl h.running

/-- All calls are as they should be. -/
structure Tracked (client : Client) : Prop where
  running : client.crashed = false
  served : ∀ index call, client.calls[index]? = some call → Served client.stub call (client.pending index)
  known : ∀ index, client.calls.length ≤ index → client.pending index = 0

theorem tracked_create (stub : Bool) : Tracked (Client.create stub) where
  running := rfl
  served _ _ h := by simp [Client.create] at h
  known _ _ := rfl

/-- A step that changes neither the calls nor what is outstanding. -/
theorem Tracked.of_frame (h : Tracked client) (hcrashed : next.crashed = client.crashed)
    (hstub : next.stub = client.stub) (hcalls : next.calls = client.calls)
    (hpending : ∀ index, next.pending index = client.pending index) : Tracked next where
  running := hcrashed.trans h.running
  served index call hcall := by
    rw [hstub, hpending]
    exact h.served index call (hcalls ▸ hcall)
  known index hlength := by
    rw [hpending]
    exact h.known index (hcalls ▸ hlength)

/-- A step of one call or of its tag. -/
theorem Tracked.of_moved (h : Tracked client) {index : ℕ} {call call' : Call}
    (hcall : client.calls[index]? = some call) (hcrashed : next.crashed = client.crashed)
    (hstub : next.stub = client.stub) (hcalls : next.calls = client.calls.set index call')
    (hpending : ∀ other, index ≠ other → next.pending other = client.pending other)
    (hserved : Served client.stub call' (next.pending index)) : Tracked next where
  running := hcrashed.trans h.running
  served other moved hmoved := by
    rw [hcalls] at hmoved
    rw [hstub]
    by_cases hne : index = other
    · subst hne
      rw [List.getElem?_set_self (lt_length_of_getElem? hcall)] at hmoved
      cases hmoved
      exact hserved
    · rw [List.getElem?_set_ne hne] at hmoved
      rw [hpending other hne]
      exact h.served other moved hmoved
  known other hlength := by
    rw [hcalls, List.length_set] at hlength
    have hne : index ≠ other := by
      have hlt := lt_length_of_getElem? hcall
      omega
    rw [hpending other hne]
    exact h.known other hlength

/-- The thread of a call moves on without starting an operation, or starts one. -/
theorem Tracked.update (h : Tracked client) {index : ℕ} {call call' : Call} {started : Option OpKind}
    (hcall : client.calls[index]? = some call)
    (hserved : Served client.stub call' (client.pending index + started.isSome.toNat)) :
    Tracked (client.update index call' started) := by
  refine h.of_moved hcall rfl rfl rfl (fun other hne ↦ ?_) ?_
  · rw [pending_update, if_neg hne, Nat.add_zero]
  · rw [pending_update, if_pos rfl]
    exact hserved

theorem tracked_advance (h : Tracked client) {index : ℕ} {call : Call} (hcall : client.calls[index]? = some call)
    (hstep : client.advance index call = some next) : Tracked next := by
  have hserved := h.served index call hcall
  generalize hpending : client.pending index = pending at hserved
  cases hserved with
  | refused hkind hstub htag hpc =>
    have hmoved : Tracked (client.update index
        { call with pc := .returned (some client.promises.length) } none) := by
      apply h.update hcall
      rw [hpending]
      exact .refused hkind hstub htag (.inr rfl)
    obtain ⟨kind, callback, pc, tag⟩ := call
    cases hkind
    obtain hpc | hpc := hpc
    · cases hpc
      simp only [Client.advance, Client.enter, hstub, Option.some.injEq] at hstep
      subst hstep
      exact hmoved.of_frame rfl rfl rfl fun _ ↦ rfl
    · rw [advance_of_isReturned hpc] at hstep
      cases hstep
  | entered hkind hstub htag hpc =>
    simp only [Client.advance, hpc, Client.enter, hkind, hstub, Option.some.injEq] at hstep
    subst hstep
    apply h.update hcall
    rw [hpending]
    exact .made rfl rfl ⟨rfl, by decide, rfl, rfl, rfl⟩ rfl
  | made hkind htag htag' hpc =>
    simp only [Client.advance, hpc, hkind, Option.some.injEq] at hstep
    subst hstep
    apply h.update hcall
    rw [hpending]
    exact .streams htag htag' rfl
  | streams htag htag' hpc => simp [Client.advance, hpc] at hstep
  | ended htag hdeleted hfinishes hpc => simp [Client.advance, hpc] at hstep

theorem tracked_proceed (h : Tracked client) {op : Op} {event : Event}
    (hcompleter : client.completer = .proceed op event) : Tracked (client.proceed op event) := by
  have hpos : 0 < client.pending op.call := by
    simp [Client.pending, hcompleter, CompleterPc.holds]
  obtain ⟨call, hcall⟩ : ∃ call, client.calls[op.call]? = some call := by
    by_contra hnone
    have hlength : client.calls.length ≤ op.call := by
      simpa [← Option.ne_none_iff_exists'] using hnone
    have := h.known op.call hlength
    omega
  have hserved := h.served op.call call hcall
  generalize hpending : client.pending op.call = pending at hserved
  cases hserved with
  | streams htag htag' hpc =>
    rename_i tag step
    obtain ⟨hassertion, hcompletion, hmove⟩ := (htag'.receive op.kind event).proceed event.ok
    generalize houtcome : (tag.receive op.kind event).proceed event.ok = outcome at hassertion hcompletion hmove
    have hproceed := client.proceed_eq hcall htag htag'.live houtcome hcompletion hassertion
    generalize client.proceed op event = after at hproceed ⊢
    obtain ⟨hcalls, houtstanding, hnext, hcrashed, hstub⟩ :
        after.calls = client.calls.set op.call { call with tag := some outcome.tag } ∧
          after.outstanding = (client.update op.call call outcome.started).outstanding ∧ after.completer = .test ∧
          after.crashed = client.crashed ∧ after.stub = client.stub := by
      subst hproceed
      exact ⟨rfl, rfl, rfl, rfl, rfl⟩
    have hcount := pending_proceed hcompleter houtstanding hnext
    apply h.of_moved hcall hcrashed hstub hcalls
    · intro other hne
      simpa [hne] using hcount other
    · have hself := hcount op.call
      rw [if_pos rfl, if_pos rfl, hpending] at hself
      obtain ⟨hstarted, step', hstreams⟩ | ⟨hstarted, hdeleted, hfinishes⟩ := hmove
      · rw [hstarted, Bool.toNat_true] at hself
        obtain hone : after.pending op.call = 1 := by omega
        rw [hone]
        exact .streams rfl hstreams hpc
      · rw [hstarted] at hself
        obtain hzero : after.pending op.call = 0 := by simpa using hself
        rw [hzero]
        exact .ended rfl hdeleted hfinishes hpc
  | _ => omega

theorem tracked_complete (h : Tracked client) (hstep : Completes client next) : Tracked next := by
  have hpending := hstep.pending_eq
  cases hstep with
  | proceeds hcompleter => exact tracked_proceed h hcompleter
  | tests hcompleter | takes hcompleter _ | ends hcompleter _ _ | waits hcompleter =>
    exact h.of_frame rfl rfl rfl (hpending (by simp [hcompleter]))

theorem tracked_destroy (h : Tracked client) (hstep : client.destroy = some next) : Tracked next := by
  obtain ⟨shutdown, queueShutdown, destructor, -, rfl⟩ := destroy_frame hstep
  exact h.of_frame rfl rfl rfl fun _ ↦ rfl

/-- A call that is entered has nothing outstanding. -/
theorem tracked_call (h : Tracked client) {kind : CallKind} (callback : Bool)
    (honly : OnlyListens client (.call kind callback)) :
    Tracked { client with calls := client.calls ++ [{ kind, callback }] } where
  running := h.running
  served index call hcall := by
    obtain hold | ⟨rfl, rfl⟩ := of_getElem?_append_singleton hcall
    · exact h.served index call hold
    · have hzero := h.known client.calls.length (Nat.le_refl _)
      change Served client.stub _ (client.pending client.calls.length)
      rw [hzero]
      obtain ⟨hkind, hstub⟩ | ⟨hkind, hstub⟩ := honly
      · exact .entered hkind hstub rfl rfl
      · exact .refused hkind hstub rfl (.inl rfl)
  known index hlength := by
    apply h.known index
    simp only [List.length_append] at hlength
    omega

theorem tracked_step (action : Action) (h : Tracked client) (honly : OnlyListens client action)
    (hstep : step client action = some next) : Tracked next := by
  cases move_of_step hstep with
  | call _ => exact tracked_call h _ honly
  | advance hcall hadvance => exact tracked_advance h hcall hadvance
  | complete hcomplete => exact tracked_complete h hcomplete
  | destroy hdestroy => exact tracked_destroy h hdestroy

theorem Tracked.oneOutstanding (h : Tracked client) : OneOutstanding client where
  running := h.running
  one index call tag hcall hreturned htag hlive := by
    have hserved := h.served index call hcall
    generalize client.pending index = pending at hserved
    cases hserved with
    | streams htag' hstreams hpc => rfl
    | refused _ _ hnone _ | entered _ _ hnone _ => cases hnone.symm.trans htag
    | made _ _ _ hpc =>
      rw [hpc] at hreturned
      cases hreturned
    | ended htag' hdeleted _ _ =>
      cases htag'.symm.trans htag
      cases hlive.symm.trans hdeleted
  finishes call hcall tag htag := by
    obtain ⟨index, hindex⟩ := List.mem_iff_getElem?.mp hcall
    have hserved := h.served index call hindex
    generalize client.pending index = pending at hserved
    cases hserved with
    | refused _ _ hnone _ | entered _ _ hnone _ => cases hnone.symm.trans htag
    | made _ htag' hstreams _ | streams htag' hstreams _ =>
      cases htag'.symm.trans htag
      rw [hstreams.finishes]
      split <;> decide
    | ended htag' _ hfinishes _ =>
      cases htag'.symm.trans htag
      exact hfinishes.le
  future call hcall tag htag future hpc := by
    obtain ⟨index, hindex⟩ := List.mem_iff_getElem?.mp hcall
    have hserved := h.served index call hindex
    generalize client.pending index = pending at hserved
    cases hserved with
    | refused _ _ hnone _ | entered _ _ hnone _ => cases hnone.symm.trans htag
    | made _ _ _ hpc' | streams _ _ hpc' | ended _ _ _ hpc' => cases hpc'.symm.trans hpc

/-- In every run in which the client is only used to listen, with any number of streams, every stream tag
has exactly one operation outstanding from the return of `listen_results` to its deletion. -/
theorem one_outstanding (stub : Bool) {actions : List Action} {final : Client}
    (honly : Meets step OnlyListens (Client.create stub) actions)
    (hrun : run step (Client.create stub) actions = some final) : OneOutstanding final :=
  (honly.invariant (fun _ action _ h ↦ tracked_step action h) (tracked_create stub) hrun).oneOutstanding

/-- Two streams; the first is established, delivers a message and waits for the next one. -/
def listenTwice : List Action :=
  [.call .listen true, .call .listen false, .advance 0, .advance 0, .advance 1,
    .complete .timeout, .complete (.gotEvent ⟨0, .startCall⟩ { ok := true }), .complete .timeout,
    .complete .timeout, .complete (.gotEvent ⟨0, .read⟩ { ok := true, response := { task := some {} } }),
    .complete .timeout, .advance 1]

theorem one_outstanding_two : ∃ final, run step (Client.create true) listenTwice = some final ∧
    OneOutstanding final ∧ final.pending 0 = 1 ∧ final.pending 1 = 1 := by
  have hpending : (run step (Client.create true) listenTwice).map (fun client ↦
      (client.pending 0, client.pending 1)) = some (1, 1) := by
    decide +kernel
  obtain ⟨final, hrun, hpending⟩ := Option.map_eq_some_iff.mp hpending
  obtain ⟨h₀, h₁⟩ := Prod.mk.inj hpending
  exact ⟨final, hrun, one_outstanding true (by decide +kernel) hrun, h₀, h₁⟩

/-- `submit_task_async` returns with nothing outstanding for its tag. -/
theorem submits_without_event : ¬ ∀ (stub : Bool) (actions : List Action) (final : Client),
    run step (Client.create stub) actions = some final → OneOutstanding final := by
  intro h
  have hshape : (run step (Client.create true) [.call .submit false, .advance 0, .advance 0]).map (fun client ↦
      (client.pending 0, client.calls.map fun call ↦
        (call.pc, call.tag.map fun tag ↦ tag.deleted))) = some (0, [(.returned (some 0), some false)]) := by
    decide +kernel
  obtain ⟨final, hrun, hshape⟩ := Option.map_eq_some_iff.mp hshape
  obtain ⟨hpending, hcalls⟩ := Prod.mk.inj hshape
  obtain ⟨call, hcall, hpair⟩ : ∃ call, final.calls[0]? = some call ∧
      (call.pc, call.tag.map fun tag ↦ tag.deleted) = (.returned (some 0), some false) := by
    apply Option.map_eq_some_iff.mp
    rw [← List.getElem?_map, hcalls]
    rfl
  obtain ⟨hpc, htag⟩ := Prod.mk.inj hpair
  obtain ⟨tag, htag, hlive⟩ := Option.map_eq_some_iff.mp htag
  have hone := (h true _ final hrun).one 0 call tag hcall (by rw [hpc]; rfl) htag hlive
  cases hpending.symm.trans hone

end TinyReactor.GrpcClient
