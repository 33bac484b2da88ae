import TinyReactor.GrpcClient.Model

/-!
# Inversion of the client's steps

The outcomes of `Proceed`, of a pass of `CompleteRpc`, of the destructor and of a step of the whole client. A
step is possible only while the process is running.
-/

namespace TinyReactor.GrpcClient

variable {client next : Client}

/-- `Proceed` ends the process, or moves the live tag whose event is in hand. -/
inductive Proceeds (client : Client) (op : Op) (event : Event) : Client → Prop
  | crash : Proceeds client op event client.crash
  | moves {call : Call} {tag : Tag} {outcome : Outcome} {promises : List (Option Completion)}
      (hcall : client.calls[op.call]? = some call) (htag : call.tag = some tag) (hlive : tag.deleted = false)
      (houtcome : outcome = (tag.receive op.kind event).proceed event.ok)
      (hpassed : outcome.assertionFailed = false)
      (hfulfil : Client.fulfil client.promises tag.promise outcome.completion = some promises) :
      Proceeds client op event
        { client.update op.call { call with tag := some outcome.tag } outcome.started with
          promises
          notified := client.notified ++ outcome.notified.map (Prod.mk op.call)
          completer := .test }

theorem proceeds_proceed (op : Op) (event : Event) : Proceeds client op event (client.proceed op event) := by
  unfold Client.proceed
  split
  · exact .crash
  · rename_i call tag hlive
    simp only [Client.liveTag, Option.bind_eq_some_iff, Option.ite_none_left_eq_some, Option.some.injEq,
      Prod.mk.injEq, Bool.not_eq_true] at hlive
    obtain ⟨_, hcall, _, htag, hdeleted, rfl, rfl⟩ := hlive
    dsimp only
    split
    · exact .crash
    · rename_i promises hfulfil
      split
      · exact .crash
      · rename_i hpassed
        exact .moves hcall htag hdeleted rfl (Bool.eq_false_iff.mpr hpassed) hfulfil

/-- `Proceed` of a live tag that has no promise to complete. -/
theorem Client.proceed_eq {op : Op} {event : Event} {call : Call} {tag : Tag} {outcome : Outcome}
    (hcall : client.calls[op.call]? = some call) (htag : call.tag = some tag) (hlive : tag.deleted = false)
    (houtcome : (tag.receive op.kind event).proceed event.ok = outcome) (hcompletion : outcome.completion = none)
    (hpassed : outcome.assertionFailed = false) :
    client.proceed op event =
      { client.update op.call { call with tag := some outcome.tag } outcome.started with
        promises := client.promises
        notified := client.notified ++ outcome.notified.map (Prod.mk op.call)
        completer := .test } := by
  have hliveTag : client.liveTag op.call = some (call, tag) := by
    simp [Client.liveTag, hcall, htag, hlive]
  simp only [Client.proceed, hliveTag, houtcome, hcompletion, Client.fulfil, hpassed]
  rfl

/-- The steps of `CompleteRpc`. -/
inductive Completes (client : Client) : Client → Prop
  | tests (hcompleter : client.completer = .test) :
      Completes client { client with completer := if client.shutdown then .returned else .next }
  | takes {op : Op} {event : Event} (hcompleter : client.completer = .next) (hmem : op ∈ client.outstanding) :
      Completes client
        { client with outstanding := client.outstanding.erase op, completer := .proceed op event }
  | ends (hcompleter : client.completer = .next) (hqueue : client.queueShutdown = true)
      (hdrained : client.outstanding = []) : Completes client { client with completer := .returned }
  | waits (hcompleter : client.completer = .next) : Completes client { client with completer := .test }
  | proceeds {op : Op} {event : Event} (hcompleter : client.completer = .proceed op event) :
      Completes client (client.proceed op event)

theorem completes_of_complete {status : NextStatus} (hstep : client.complete status = some next) :
    Completes client next := by
  cases hcompleter : client.completer with
  | test =>
    simp only [Client.complete, hcompleter, Option.some.injEq] at hstep
    subst hstep
    exact .tests hcompleter
  | next =>
    simp only [Client.complete, hcompleter] at hstep
    cases status with
    | gotEvent op event =>
      simp only [Option.ite_none_right_eq_some, Option.some.injEq] at hstep
      obtain ⟨hmem, rfl⟩ := hstep
      exact .takes hcompleter hmem
    | shutdown =>
      simp only [Option.ite_none_right_eq_some, Option.some.injEq] at hstep
      obtain ⟨⟨hqueue, hdrained⟩, rfl⟩ := hstep
      exact .ends hcompleter hqueue hdrained
    | timeout =>
      cases hstep
      exact .waits hcompleter
  | proceed op event =>
    simp only [Client.complete, hcompleter, Option.some.injEq] at hstep
    subst hstep
    exact .proceeds hcompleter
  | returned => simp [Client.complete, hcompleter] at hstep

/-- The destructor touches nothing but the two shutdown flags. -/
theorem destroy_frame (hstep : client.destroy = some next) :
    ∃ shutdown queueShutdown destructor, destructor ≠ .idle ∧
      next = { client with shutdown, queueShutdown, destructor } := by
  simp only [Client.destroy] at hstep
  split at hstep
  · simp only [Option.ite_none_right_eq_some, Option.some.injEq] at hstep
    obtain ⟨-, rfl⟩ := hstep
    exact ⟨_, _, .shutdownQueue, by decide, rfl⟩
  · cases hstep
    exact ⟨_, _, .join, by decide, rfl⟩
  · split at hstep
    · cases hstep
      exact ⟨_, _, .finished, by decide, rfl⟩
    · cases hstep
  · cases hstep

theorem advance_of_isReturned {index : ℕ} {call : Call} (hpc : call.pc.isReturned = true) :
    client.advance index call = none := by
  obtain ⟨kind, callback, pc, tag⟩ := call
  cases pc with
  | returned future => rfl
  | _ => cases hpc

/-- A step of the client, told by the function that makes it. -/
inductive Client.Move (client : Client) : Action → Client → Prop
  | call {kind : CallKind} {callback : Bool} (hidle : client.destructor = .idle) :
      Move client (.call kind callback) { client with calls := client.calls ++ [{ kind, callback }] }
  | advance {index : ℕ} {call : Call} {next : Client} (hcall : client.calls[index]? = some call)
      (hadvance : client.advance index call = some next) : Move client (.advance index) next
  | complete {status : NextStatus} {next : Client} (hcomplete : Completes client next) :
      Move client (.complete status) next
  | destroy {next : Client} (hdestroy : client.destroy = some next) : Move client .destroy next

theorem move_of_step {action : Action} (hstep : step client action = some next) : client.Move action next := by
  unfold step at hstep
  obtain ⟨-, hstep⟩ := Option.ite_none_left_eq_some.mp hstep
  cases action with
  | call kind callback =>
    simp only [Option.ite_none_right_eq_some, Option.some.injEq] at hstep
    obtain ⟨hidle, rfl⟩ := hstep
    exact .call hidle
  | advance index =>
    obtain ⟨call, hcall, hadvance⟩ := Option.bind_eq_some_iff.mp hstep
    exact .advance hcall hadvance
  | complete status => exact .complete (completes_of_complete hstep)
  | destroy => exact .destroy hstep

end TinyReactor.GrpcClient
