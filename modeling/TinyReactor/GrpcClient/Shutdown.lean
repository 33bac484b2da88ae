import TinyReactor.GrpcClient.Outstanding

/-!
# Destroying the client

The destructor raises `shutdown_`, shuts the completion queue down and joins `CompleteRpc`. The queue reports
SHUTDOWN only after the last event was handed out, so a loop that left on SHUTDOWN alone would run every tag to
its end. The loop also leaves when it finds the flag raised, and what is outstanding then stays so for good.
-/

namespace TinyReactor.GrpcClient

open Transition

/-- `CompleteRpc` is at the test of `shutdown_`. -/
def CompleterPc.tests : CompleterPc → Bool
  | .test => true
  | _ => false

/-- Whenever `CompleteRpc` reads `shutdown_` as raised, no operation is outstanding. -/
def DrainsFirst (client : Client) : Action → Prop
  | .complete _ => client.completer.tests = true → client.shutdown = true → client.outstanding = []
  | _ => True

instance (client : Client) : (action : Action) → Decidable (DrainsFirst client action)
  | .complete _ => inferInstanceAs (Decidable
      (client.completer.tests = true → client.shutdown = true → client.outstanding = []))
  | .call .. | .advance _ | .destroy => .isTrue trivial

/-- The tag has been deleted and its promise, if it has one, is completed. -/
def Resolved (client : Client) (index : ℕ) : Prop :=
  ∃ call tag, client.calls[index]? = some call ∧ call.tag = some tag ∧ tag.deleted = true ∧
    ∀ promise ∈ tag.promise, ∃ completion, client.promises[promise]? = some (some completion)

/-- `call_once` has not fired on a live tag, and a stream has no promise. -/
structure Tag.Sound (tag : Tag) : Prop where
  once : tag.deleted = false → tag.once = false
  stream : ∀ step, tag.machine = .listen step → tag.promise = none

/-- The tags are sound, and nothing is shut down before the destructor runs. -/
structure Coherent (client : Client) : Prop where
  sound : ∀ call ∈ client.calls, ∀ tag ∈ call.tag, tag.Sound
  open' : client.destructor = .idle → client.shutdown = false ∧ client.queueShutdown = false ∧
    client.completer ≠ .returned

variable {client next before : Client}

/-! ## One event -/

theorem Tag.Sound.receive {tag : Tag} (h : tag.Sound) (op : OpKind) (event : Event) :
    (tag.receive op event).Sound ∧ (tag.receive op event).promise = tag.promise ∧
      (tag.receive op event).deleted = tag.deleted := by
  have hframe (status : Status) (response : Response) : Tag.Sound { tag with status, response } := ⟨h.once, h.stream⟩
  simp only [Tag.receive]
  split
  · exact ⟨h, rfl, rfl⟩
  · exact ⟨hframe tag.status _, rfl, rfl⟩
  · exact ⟨hframe _ tag.response, rfl, rfl⟩
  · exact ⟨hframe _ _, rfl, rfl⟩

/-- An event makes a live tag start another operation, or complete its promise and delete itself. -/
structure Outcome.Proper (outcome : Outcome) (promise : Option ℕ) : Prop where
  sound : outcome.tag.Sound
  kept : outcome.tag.promise = promise
  move : outcome.started.isSome = true ∨
    (outcome.tag.deleted = true ∧ (outcome.completion = none → promise = none))

/-- Completing the promise of a tag with `outcome`. -/
structure Outcome.Completes (outcome : Outcome) (tag : Tag) : Prop where
  completion : outcome.completion ≠ none
  machine : outcome.tag.machine = tag.machine
  promise : outcome.tag.promise = tag.promise

theorem Tag.startFinish_proper (tag : Tag) (machine : Machine) (honce : tag.once = false)
    (hstream : ∀ step, machine = .listen step → tag.promise = none) :
    (tag.startFinish machine).Proper tag.promise :=
  ⟨⟨fun _ ↦ honce, hstream⟩, rfl, .inl rfl⟩

theorem Outcome.Completes.delete {outcome : Outcome} {tag : Tag} (h : outcome.Completes tag)
    (hmachine : ∀ step, tag.machine ≠ .listen step) : outcome.delete.Proper tag.promise where
  sound := by
    constructor
    · intro hlive
      cases hlive
    · intro step hstep
      exact absurd (h.machine.symm.trans hstep) (hmachine step)
  kept := h.promise
  move := .inr ⟨rfl, fun hnone ↦ absurd hnone h.completion⟩

theorem Tag.setSuccess_completes (tag : Tag) : tag.setSuccess.Completes tag :=
  ⟨Option.some_ne_none _, rfl, rfl⟩

theorem Tag.setResult_completes (tag : Tag) (honce : tag.once = false) : tag.setResult.Completes tag := by
  simp only [Tag.setResult, honce]
  cases tag.status.ok <;> exact ⟨Option.some_ne_none _, rfl, rfl⟩

theorem Tag.proceedSubmit_proper {tag : Tag} (ok : Bool) (step : UnaryStep) (honce : tag.once = false)
    (hmachine : ∀ step, tag.machine ≠ .listen step) : (tag.proceedSubmit ok step).Proper tag.promise := by
  have hstart (status : Status) : (Tag.startFinish { tag with status } (.submit .finish)).Proper tag.promise := by
    apply Tag.startFinish_proper { tag with status } _ honce
    rintro _ ⟨⟩
  have hresolve (status : Status) := (Tag.setResult_completes { tag with status } honce).delete hmachine
  cases step with
  | launch => exact hstart _
  | finish => exact hresolve _

theorem Tag.proceedUnary_proper {tag : Tag} {finish : Machine} {resolve : Tag → Outcome} (ok : Bool)
    (step : UnaryStep) (honce : tag.once = false) (hfinish : ∀ step, finish ≠ .listen step)
    (hmachine : ∀ step, tag.machine ≠ .listen step)
    (hresolve : ∀ tag : Tag, tag.once = false → (resolve tag).Completes tag) :
    (tag.proceedUnary ok finish resolve step).Proper tag.promise := by
  have hdelete (status : Status) := (hresolve { tag with status } honce).delete hmachine
  cases step with
  | launch =>
    cases ok with
    | true => exact tag.startFinish_proper finish honce fun step hstep ↦ absurd hstep (hfinish step)
    | false => exact hdelete _
  | finish => exact hdelete tag.status

theorem Tag.proceedListen_proper {tag : Tag} (ok : Bool) (step : ListenStep) (hpromise : tag.promise = none)
    (honce : tag.once = false) (hfailed : (tag.proceedListen ok step).assertionFailed = false) :
    (tag.proceedListen ok step).Proper tag.promise := by
  have hstart (status : Status) :=
    Tag.startFinish_proper { tag with status } (.listen .finish) honce fun _ _ ↦ hpromise
  have hfinish (code : StatusCode) : (tag.transitionToFinish code).Proper tag.promise := hstart _
  have hread (machine : Machine) (response : Response) (notified : List (Wire.Task × Status)) :
      Outcome.Proper { tag := { tag with machine, response }, started := some .read, notified } tag.promise :=
    ⟨⟨fun _ ↦ honce, fun _ _ ↦ hpromise⟩, rfl, .inl rfl⟩
  cases step with
  | start =>
    cases ok with
    | true => exact hread _ tag.response _
    | false => exact hfinish _
  | read =>
    cases ok with
    | true =>
      simp only [Tag.proceedListen, if_true]
      split
      · exact hread tag.machine _ _
      · exact hfinish _
    | false => exact hfinish _
  | finish => exact ⟨⟨by rintro ⟨⟩, fun _ _ ↦ hpromise⟩, rfl, .inr ⟨rfl, fun _ ↦ hpromise⟩⟩
  | done => cases hfailed

theorem Tag.Sound.proceed {tag : Tag} (h : tag.Sound) (hlive : tag.deleted = false) (ok : Bool)
    (hfailed : (tag.proceed ok).assertionFailed = false) : (tag.proceed ok).Proper tag.promise := by
  have honce := h.once hlive
  cases hmachine : tag.machine with
  | submit step =>
    simp only [Tag.proceed, hmachine]
    apply Tag.proceedSubmit_proper ok step honce
    simp [hmachine]
  | cancel step =>
    simp only [Tag.proceed, hmachine]
    apply Tag.proceedUnary_proper ok step honce
    · simp
    · simp [hmachine]
    · exact fun tag _ ↦ tag.setSuccess_completes
  | query step =>
    simp only [Tag.proceed, hmachine]
    apply Tag.proceedUnary_proper ok step honce
    · simp
    · simp [hmachine]
    · exact fun tag honce ↦ tag.setResult_completes honce
  | listen step =>
    simp only [Tag.proceed, hmachine] at hfailed ⊢
    exact Tag.proceedListen_proper ok step (h.stream step hmachine) honce hfailed

/-! ## Promises -/

theorem fulfil_spec {promises promises' : List (Option Completion)} {promise : Option ℕ}
    {completion : Option Completion} (h : Client.fulfil promises promise completion = some promises') :
    (∀ (place : ℕ) completed, promises[place]? = some (some completed) → promises'[place]? = some (some completed)) ∧
      (completion ≠ none → ∀ place ∈ promise, ∃ completed, promises'[place]? = some (some completed)) := by
  cases completion with
  | none =>
    cases h
    exact ⟨fun _ _ hplace ↦ hplace, fun hnone ↦ absurd rfl hnone⟩
  | some completion =>
    simp only [Client.fulfil, Option.bind_eq_some_iff] at h
    obtain ⟨owner, rfl, h⟩ := h
    split at h
    · rename_i hempty
      cases h
      constructor
      · intro place completed hplace
        have hne : owner ≠ place := by
          rintro rfl
          cases hempty.symm.trans hplace
        rw [List.getElem?_set_ne hne, hplace]
      · rintro - _ ⟨⟩
        exact ⟨completion, List.getElem?_set_self (lt_length_of_getElem? hempty)⟩
    · cases h

/-! ## Handling an event -/

/-- In a coherent client the live tag moves as it should. -/
theorem Coherent.proper (h : Coherent client) {index : ℕ} {call : Call} {tag : Tag} {op : OpKind} {event : Event}
    (hcall : client.calls[index]? = some call) (htag : call.tag = some tag) (hlive : tag.deleted = false)
    (hpassed : ((tag.receive op event).proceed event.ok).assertionFailed = false) :
    ((tag.receive op event).proceed event.ok).Proper tag.promise := by
  obtain ⟨hsound, hpromise, hkept⟩ := (h.sound call (List.mem_of_getElem? hcall) tag htag).receive op event
  have hproper := hsound.proceed (hkept.trans hlive) event.ok hpassed
  rwa [hpromise] at hproper

/-- A step that moves one call keeps what holds of all tags if it holds of the moved one. -/
theorem forall_tag_set {P : Tag → Prop} (h : ∀ call ∈ client.calls, ∀ tag ∈ call.tag, P tag) {index : ℕ} {call : Call}
    (hcall : ∀ tag ∈ call.tag, P tag) : ∀ call' ∈ client.calls.set index call, ∀ tag ∈ call'.tag, P tag := by
  intro call' hmem
  obtain hold | rfl := List.mem_or_eq_of_mem_set hmem
  · exact h call' hold
  · exact hcall

theorem coherent_proceed (h : Coherent client) {op : Op} {event : Event} (hstep : Proceeds client op event next) :
    Coherent next := by
  cases hstep with
  | crash => exact ⟨h.sound, h.open'⟩
  | moves hcall htag hlive houtcome hpassed _ =>
    subst houtcome
    constructor
    · apply forall_tag_set h.sound
      rintro _ ⟨⟩
      exact (h.proper hcall htag hlive hpassed).sound
    · intro hidle
      obtain ⟨hshutdown, hqueue, -⟩ := h.open' hidle
      exact ⟨hshutdown, hqueue, by rintro ⟨⟩⟩

theorem coherent_complete (h : Coherent client) (hstep : Completes client next) : Coherent next := by
  cases hstep with
  | tests hcompleter =>
    refine ⟨h.sound, fun hidle ↦ ?_⟩
    obtain ⟨hshutdown, hqueue, -⟩ := h.open' hidle
    refine ⟨hshutdown, hqueue, ?_⟩
    simp [hshutdown]
  | takes _ _ | waits _ =>
    refine ⟨h.sound, fun hidle ↦ ?_⟩
    obtain ⟨hshutdown, hqueue, -⟩ := h.open' hidle
    exact ⟨hshutdown, hqueue, by rintro ⟨⟩⟩
  | ends _ hqueue _ =>
    refine ⟨h.sound, fun hidle ↦ ?_⟩
    cases hqueue.symm.trans (h.open' hidle).2.1
  | proceeds _ => exact coherent_proceed h (proceeds_proceed _ _)

/-- The tags that the client methods make are sound. -/
theorem coherent_advance (h : Coherent client) {index : ℕ} {call : Call} (hcall : client.calls[index]? = some call)
    (hstep : client.advance index call = some next) : Coherent next := by
  have hold := h.sound call (List.mem_of_getElem? hcall)
  have hmoved (call' : Call) (started : Option OpKind) (promises : List (Option Completion))
      (notified : List (ℕ × Wire.Task × Status)) (hsound : ∀ tag ∈ call'.tag, tag.Sound) :
      Coherent { client.update index call' started with promises, notified } :=
    ⟨forall_tag_set h.sound hsound, h.open'⟩
  have hfresh (machine : Machine) (promise : Option ℕ) (callback : Bool)
      (hstream : ∀ step, machine = .listen step → promise = none) :
      ∀ tag ∈ some { machine, promise, callback : Tag }, tag.Sound := by
    rintro _ ⟨⟩
    exact ⟨fun _ ↦ rfl, hstream⟩
  unfold Client.advance at hstep
  split at hstep
  · cases hstep
    unfold Client.enter
    split
    · exact hmoved _ none _ _ hold
    · exact hmoved _ none _ _ (hfresh _ _ _ (by rintro _ ⟨⟩))
    · exact hmoved _ none _ _ (hfresh _ _ _ (by rintro _ ⟨⟩))
    · exact hmoved _ none _ _ (hfresh _ _ _ (by rintro _ ⟨⟩))
    · exact hmoved _ none _ _ (hfresh _ _ _ fun _ _ ↦ rfl)
    · exact ⟨h.sound, h.open'⟩
  · split at hstep <;> cases hstep
    · exact hmoved _ none _ _ hold
    · exact hmoved _ none _ _ hold
    · exact hmoved _ none _ _ hold
    · exact hmoved _ _ _ _ hold
  · cases hstep
    apply hmoved
    intro tag htag
    obtain ⟨old, hmem, rfl⟩ := Option.map_eq_some_iff.mp htag
    exact ⟨(hold old hmem).once, (hold old hmem).stream⟩
  · cases hstep
    exact ⟨h.sound, h.open'⟩
  · cases hstep

theorem coherent_destroy (h : Coherent client) (hstep : client.destroy = some next) : Coherent next := by
  obtain ⟨shutdown, queueShutdown, destructor, hdestructor, rfl⟩ := destroy_frame hstep
  exact ⟨h.sound, fun hidle ↦ absurd hidle hdestructor⟩

theorem coherent_step (action : Action) (h : Coherent client) (hstep : step client action = some next) :
    Coherent next := by
  cases move_of_step hstep with
  | call _ =>
    refine ⟨forall_mem_append_singleton h.sound ?_, h.open'⟩
    rintro _ ⟨⟩
  | advance hcall hadvance => exact coherent_advance h hcall hadvance
  | complete hcomplete => exact coherent_complete h hcomplete
  | destroy hdestroy => exact coherent_destroy h hdestroy

theorem coherent_create (stub : Bool) : Coherent (Client.create stub) where
  sound := by rintro _ ⟨⟩
  open' _ := ⟨rfl, rfl, by rintro ⟨⟩⟩

theorem coherent_run {stub : Bool} {actions : List Action}
    (hrun : run step (Client.create stub) actions = some before) : Coherent before :=
  run_invariant (fun _ action _ h ↦ coherent_step action h) (coherent_create stub) hrun

/-! ## While the destructor runs -/

/-- The client while it is destroyed: no method is running, every tag that had an operation outstanding
`before` still has one or is resolved, and `CompleteRpc` does not return before the queue is drained. -/
structure Draining (before client : Client) : Prop where
  coherent : Coherent client
  destroying : client.destructor ≠ .idle
  quiet : ∀ call ∈ client.calls, call.pc.isReturned = true
  kept : ∀ index, 0 < before.pending index → 0 < client.pending index ∨ Resolved client index
  drained : client.completer = .returned → client.outstanding = []

theorem Resolved.of_frame {index : ℕ} (h : Resolved client index) (hcalls : next.calls = client.calls)
    (hpromises : next.promises = client.promises) : Resolved next index := by
  unfold Resolved at h ⊢
  rwa [hcalls, hpromises]

/-- A tag that has started no further operation on its event is resolved. -/
theorem resolved_of_proper {index : ℕ} {call : Call} {tag : Tag} {outcome : Outcome}
    (hcall : client.calls[index]? = some call) (hproper : outcome.Proper tag.promise)
    (hstarted : ¬ outcome.started.isSome = true)
    (hcalls : next.calls = client.calls.set index { call with tag := some outcome.tag })
    (hfulfil : Client.fulfil client.promises tag.promise outcome.completion = some next.promises) :
    Resolved next index := by
  obtain ⟨hdeleted, hcompletion⟩ := hproper.move.resolve_left hstarted
  refine ⟨{ call with tag := some outcome.tag }, outcome.tag, ?_, rfl, hdeleted, fun promise hpromise ↦ ?_⟩
  · rw [hcalls, List.getElem?_set_self (lt_length_of_getElem? hcall)]
  · rw [hproper.kept] at hpromise
    apply (fulfil_spec hfulfil).2 _ promise hpromise
    intro hnone
    cases (hcompletion hnone).symm.trans hpromise

/-- Handling an event leaves the other tags as they are. -/
theorem Resolved.of_set {index other : ℕ} {call : Call} {promise : Option ℕ} {completion : Option Completion}
    (h : Resolved client other) (hne : index ≠ other) (hcalls : next.calls = client.calls.set index call)
    (hfulfil : Client.fulfil client.promises promise completion = some next.promises) : Resolved next other := by
  obtain ⟨call', tag, hcall, htag, hdeleted, hcompleted⟩ := h
  refine ⟨call', tag, ?_, htag, hdeleted, fun promise hpromise ↦ ?_⟩
  · rw [hcalls, List.getElem?_set_ne hne, hcall]
  · obtain ⟨completed, hplace⟩ := hcompleted promise hpromise
    exact ⟨completed, (fulfil_spec hfulfil).1 promise completed hplace⟩

theorem kept_proceed (h : Draining before client) {op : Op} {event : Event}
    (hcompleter : client.completer = .proceed op event) (hstep : Proceeds client op event next) (index : ℕ)
    (hbefore : 0 < before.pending index) : 0 < next.pending index ∨ Resolved next index := by
  obtain rfl | ⟨call, tag, outcome, hcall, hproper, hcalls, houtstanding, htest, hfulfil⟩ :
      next = client.crash ∨ ∃ (call : Call) (tag : Tag) (outcome : Outcome), client.calls[op.call]? = some call ∧
        outcome.Proper tag.promise ∧
        next.calls = client.calls.set op.call { call with tag := some outcome.tag } ∧
        next.outstanding = (client.update op.call call outcome.started).outstanding ∧ next.completer = .test ∧
        Client.fulfil client.promises tag.promise outcome.completion = some next.promises := by
    cases hstep with
    | crash => exact .inl rfl
    | moves hcall htag hlive houtcome hpassed hfulfil =>
      subst houtcome
      exact .inr ⟨_, _, _, hcall, h.coherent.proper hcall htag hlive hpassed, rfl, rfl, rfl, hfulfil⟩
  · exact h.kept index hbefore
  · have hcount := pending_proceed hcompleter houtstanding htest index
    by_cases hne : op.call = index
    · subst hne
      by_cases hstarted : outcome.started.isSome = true
      · -- the event in hand is replaced by the operation just started
        have hheld : 0 < client.pending op.call := by simp [Client.pending, hcompleter, CompleterPc.holds]
        rw [if_pos rfl, if_pos rfl, hstarted, Bool.toNat_true] at hcount
        exact .inl (by omega)
      · exact .inr (resolved_of_proper hcall hproper hstarted hcalls hfulfil)
    · rw [if_neg hne, if_neg hne, Nat.add_zero, Nat.add_zero] at hcount
      rw [hcount]
      exact (h.kept index hbefore).imp_right fun hresolved ↦ hresolved.of_set hne hcalls hfulfil

/-- Handling an event concerns neither the destructor nor the threads of the calls, nor does it end the loop. -/
theorem Proceeds.frame {op : Op} {event : Event} (h : Proceeds client op event next)
    (hcompleter : client.completer = .proceed op event) (hquiet : ∀ call ∈ client.calls, call.pc.isReturned = true) :
    next.destructor = client.destructor ∧ (∀ call ∈ next.calls, call.pc.isReturned = true) ∧
      next.completer ≠ .returned := by
  cases h with
  | crash =>
    refine ⟨rfl, hquiet, ?_⟩
    change client.completer ≠ .returned
    simp [hcompleter]
  | moves hcall _ _ _ _ _ =>
    refine ⟨rfl, fun call' hmem ↦ ?_, by rintro ⟨⟩⟩
    obtain hold | rfl := List.mem_or_eq_of_mem_set hmem
    · exact hquiet call' hold
    · have hreturned := hquiet _ (List.mem_of_getElem? hcall)
      exact hreturned

theorem draining_complete (h : Draining before client) {status : NextStatus}
    (hdrains : DrainsFirst client (.complete status)) (hstep : Completes client next) : Draining before next := by
  have hcoherent := coherent_complete h.coherent hstep
  have hpending := hstep.pending_eq
  cases hstep with
  | tests hcompleter =>
    refine ⟨hcoherent, h.destroying, h.quiet, fun index hbefore ↦ ?_, fun hreturned ↦ ?_⟩
    · rw [hpending (by simp [hcompleter])]
      exact h.kept index hbefore
    · apply hdrains (by rw [hcompleter]; rfl)
      by_contra hflag
      simp [hflag] at hreturned
  | takes hcompleter _ | waits hcompleter =>
    refine ⟨hcoherent, h.destroying, h.quiet, fun index hbefore ↦ ?_, by rintro ⟨⟩⟩
    rw [hpending (by simp [hcompleter])]
    exact h.kept index hbefore
  | ends hcompleter _ hdrained =>
    refine ⟨hcoherent, h.destroying, h.quiet, fun index hbefore ↦ ?_, fun _ ↦ hdrained⟩
    rw [hpending (by simp [hcompleter])]
    exact h.kept index hbefore
  | proceeds hcompleter =>
    rename_i op event
    have hproceeds : Proceeds client op event (client.proceed op event) := proceeds_proceed op event
    obtain ⟨hdestructor, hquiet, hrunning⟩ := hproceeds.frame hcompleter h.quiet
    exact ⟨hcoherent, hdestructor ▸ h.destroying, hquiet, kept_proceed h hcompleter hproceeds,
      fun hreturned ↦ absurd hreturned hrunning⟩

theorem draining_step (action : Action) (h : Draining before client) (hdrains : DrainsFirst client action)
    (hstep : step client action = some next) : Draining before next := by
  cases move_of_step hstep with
  | call hidle => exact absurd hidle h.destroying
  | advance hcall hadvance =>
    -- a call that has returned takes no further step
    have hreturned := h.quiet _ (List.mem_of_getElem? hcall)
    rw [advance_of_isReturned hreturned] at hadvance
    cases hadvance
  | complete hcomplete => exact draining_complete h hdrains hcomplete
  | destroy hdestroy =>
    have hcoherent := coherent_destroy h.coherent hdestroy
    obtain ⟨shutdown, queueShutdown, destructor, hdestructor, rfl⟩ := destroy_frame hdestroy
    exact ⟨hcoherent, hdestructor, h.quiet, h.kept, h.drained⟩

/-- The first step of the destructor. -/
theorem draining_destroy (h : Coherent before) (hidle : before.destructor = .idle)
    (hstep : step before .destroy = some next) : Draining before next := by
  have hcoherent := coherent_step .destroy h hstep
  cases move_of_step hstep with
  | destroy hdestroy =>
    simp only [Client.destroy, hidle, Option.ite_none_right_eq_some, Option.some.injEq] at hdestroy
    obtain ⟨hquiet, rfl⟩ := hdestroy
    refine ⟨hcoherent, by rintro ⟨⟩, hquiet, fun index hbefore ↦ .inl hbefore, fun hreturned ↦ ?_⟩
    exact absurd hreturned (h.open' hidle).2.2

theorem Draining.resolved (h : Draining before client) (hreturned : client.completer = .returned) {index : ℕ}
    (hbefore : 0 < before.pending index) : Resolved client index := by
  apply (h.kept index hbefore).resolve_left
  simp [Client.pending, h.drained hreturned, hreturned, CompleterPc.holds]

/-- Every state that the client reaches is coherent; and in every run that destroys a coherent client and in
which `CompleteRpc` never finds `shutdown_` raised while an operation is outstanding, every tag that had an
operation outstanding when the destructor started is resolved when `CompleteRpc` has returned. -/
theorem destructor_resolves (before final : Client) (rest : List Action) :
    (∀ stub actions, run step (Client.create stub) actions = some before → Coherent before) ∧
    (Coherent before → before.destructor = .idle → Meets step DrainsFirst before (.destroy :: rest) →
      run step before (.destroy :: rest) = some final → final.completer = .returned →
      ∀ index, 0 < before.pending index → Resolved final index) := by
  constructor
  · exact fun stub actions hrun ↦ coherent_run hrun
  · intro hcoherent hidle hdrains hrun hreturned index hbefore
    obtain ⟨first, hfirst, hrest⟩ := run_cons_some hrun
    have hdraining := draining_destroy hcoherent hidle hfirst
    have hfinal := (hdrains.2 first hfirst).invariant (fun _ action _ h ↦ draining_step action h) hdraining hrest
    exact hfinal.resolved hreturned hbefore

/-- A stream whose `Finish` is outstanding, with `CompleteRpc` waiting in `AsyncNext`. -/
def listenFinishing : List Action :=
  [.call .listen true, .advance 0, .advance 0, .complete .timeout,
    .complete (.gotEvent ⟨0, .startCall⟩ { ok := false }), .complete .timeout, .complete .timeout]

/-- The queue is shut down, the last event arrives, and only then does `CompleteRpc` find the flag raised. -/
def destroyDrained : List Action :=
  [.destroy, .complete (.gotEvent ⟨0, .finish⟩ { ok := true, status := ⟨.cancelled, "stream aborted"⟩ }),
    .complete .timeout, .complete .timeout]

def CompleterPc.isReturned : CompleterPc → Bool
  | .returned => true
  | _ => false

theorem CompleterPc.eq_returned {completer : CompleterPc} (h : completer.isReturned = true) :
    completer = .returned := by
  cases completer with
  | returned => rfl
  | _ => cases h

theorem destructor_resolves_stream : ∃ before final, run step (Client.create true) listenFinishing = some before ∧
    run step before (.destroy :: destroyDrained) = some final ∧ 0 < before.pending 0 ∧ Resolved final 0 := by
  have hends : (run step (Client.create true) (listenFinishing ++ .destroy :: destroyDrained)).map (fun client ↦
      client.completer.isReturned) = some true := by
    decide +kernel
  have hstarts : (run step (Client.create true) listenFinishing).map (fun client ↦
      (client.destructor, client.pending 0)) = some (.idle, 1) := by
    decide +kernel
  have hdrains : Meets step DrainsFirst (Client.create true) (listenFinishing ++ .destroy :: destroyDrained) := by
    decide +kernel
  obtain ⟨final, hrun, hreturned⟩ := Option.map_eq_some_iff.mp hends
  obtain ⟨before, hbefore, hrest⟩ := run_append_some hrun
  rw [hbefore, Option.map_some, Option.some.injEq] at hstarts
  obtain ⟨hidle, hpending⟩ := Prod.mk.inj hstarts
  have hpos : 0 < before.pending 0 := by omega
  refine ⟨before, final, hbefore, hrest, hpos, ?_⟩
  obtain ⟨hcoherent, hresolves⟩ := destructor_resolves before final destroyDrained
  exact hresolves (hcoherent true _ hbefore) hidle (hdrains.append_right hbefore) hrest
    (CompleterPc.eq_returned hreturned) 0 hpos

/-- The flag is raised while `CompleteRpc` is at its test, and the stream is left behind. -/
theorem destructor_abandons : ¬ ∀ (stub : Bool) (actions rest : List Action) (before final : Client),
    run step (Client.create stub) actions = some before → before.destructor = .idle →
    run step before (.destroy :: rest) = some final → final.completer = .returned →
    ∀ index, 0 < before.pending index → Resolved final index := by
  intro h
  have hends : (run step (Client.create true)
      ([.call .listen false, .advance 0, .advance 0] ++ .destroy :: [.complete .timeout])).map (fun client ↦
        (client.completer.isReturned, client.calls.map fun call ↦ call.tag.map Tag.deleted)) =
        some (true, [some false]) := by
    decide +kernel
  have hstarts : (run step (Client.create true) [.call .listen false, .advance 0, .advance 0]).map (fun client ↦
      (client.destructor, client.pending 0)) = some (.idle, 1) := by
    decide +kernel
  obtain ⟨final, hrun, hshape⟩ := Option.map_eq_some_iff.mp hends
  obtain ⟨hreturned, hcalls⟩ := Prod.mk.inj hshape
  obtain ⟨before, hbefore, hrest⟩ := run_append_some hrun
  rw [hbefore, Option.map_some, Option.some.injEq] at hstarts
  obtain ⟨hidle, hpending⟩ := Prod.mk.inj hstarts
  obtain ⟨call, tag, hcall, htag, hdeleted, -⟩ :=
    h true _ _ before final hbefore hidle hrest (CompleterPc.eq_returned hreturned) 0 (by omega)
  have hlive : (final.calls.map fun call ↦ call.tag.map Tag.deleted)[0]? = some (some false) := by
    rw [hcalls]
    rfl
  rw [List.getElem?_map, hcall, Option.map_some, htag, Option.map_some, hdeleted] at hlive
  cases hlive

end TinyReactor.GrpcClient
