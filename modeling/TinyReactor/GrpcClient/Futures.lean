import TinyReactor.GrpcClient.Outstanding

/-!
# The futures of the client

A promise of the client is completed by the event of an operation that was started with its tag. `submit_task_async`
starts none, so that nothing ever comes back for a task that was submitted; `cancel_task_async` and
`query_status_async` start one, but the future is read through a pointer that is null by then. What is left are the
futures of a client without a stub, which are completed before they are handed out, and the streams.
-/

namespace TinyReactor.GrpcClient

open Transition Wire

/-! ## One event -/

theorem Tag.receive_keeps (tag : Tag) (op : OpKind) (event : Event) :
    (tag.receive op event).promise = tag.promise ∧ (tag.receive op event).callback = tag.callback := by
  unfold Tag.receive
  split <;> exact ⟨rfl, rfl⟩

/-- The tag keeps its promise, and without a callback nobody is notified. -/
structure Outcome.Keeps (outcome : Outcome) (tag : Tag) : Prop where
  promise : outcome.tag.promise = tag.promise
  callback : outcome.tag.callback = tag.callback
  silent : tag.callback = false → outcome.notified = []

theorem Tag.startFinish_keeps (tag : Tag) (machine : Machine) : (tag.startFinish machine).Keeps tag :=
  ⟨rfl, rfl, fun _ ↦ rfl⟩

theorem Tag.setSuccess_keeps (tag : Tag) : tag.setSuccess.Keeps tag :=
  ⟨rfl, rfl, fun _ ↦ rfl⟩

theorem Tag.setResult_keeps (tag : Tag) : tag.setResult.Keeps tag := by
  unfold Tag.setResult
  split
  · exact ⟨rfl, rfl, fun _ ↦ rfl⟩
  · split
    all_goals
      refine ⟨rfl, rfl, fun hcallback ↦ ?_⟩
      simp [hcallback]

theorem Outcome.Keeps.delete {outcome : Outcome} {tag : Tag} (h : outcome.Keeps tag) : outcome.delete.Keeps tag :=
  ⟨h.promise, h.callback, h.silent⟩

/-- The status that a branch writes first is no part of what is kept. -/
theorem Outcome.Keeps.of_status {outcome : Outcome} {tag : Tag} {status : Status}
    (h : outcome.Keeps { tag with status }) : outcome.Keeps tag :=
  ⟨h.promise, h.callback, h.silent⟩

theorem Tag.proceedUnary_keeps (tag : Tag) (ok : Bool) {finish : Machine} {resolve : Tag → Outcome}
    (hresolve : ∀ tag, (resolve tag).Keeps tag) (step : UnaryStep) :
    (tag.proceedUnary ok finish resolve step).Keeps tag := by
  cases step with
  | launch =>
    cases ok with
    | true => exact tag.startFinish_keeps finish
    | false => exact (hresolve _).delete.of_status
  | finish => exact (hresolve tag).delete

theorem Tag.proceedListen_keeps (tag : Tag) (ok : Bool) (step : ListenStep) :
    (tag.proceedListen ok step).Keeps tag := by
  have htransition (code : StatusCode) : (tag.transitionToFinish code).Keeps tag :=
    (Tag.startFinish_keeps _ _).of_status
  cases step with
  | start =>
    cases ok with
    | true => exact ⟨rfl, rfl, fun _ ↦ rfl⟩
    | false => exact htransition _
  | read =>
    cases ok with
    | true =>
      simp only [Tag.proceedListen, if_true]
      split
      · refine ⟨rfl, rfl, fun hcallback ↦ ?_⟩
        simp [hcallback]
      · exact htransition _
    | false => exact htransition _
  | finish =>
    refine ⟨rfl, rfl, fun hcallback ↦ ?_⟩
    simp [Tag.proceedListen, Outcome.delete, hcallback]
  | done => exact ⟨rfl, rfl, fun _ ↦ rfl⟩

theorem Tag.proceed_keeps (tag : Tag) (ok : Bool) : (tag.proceed ok).Keeps tag := by
  unfold Tag.proceed
  split
  · rename_i step hmachine
    cases step with
    | launch => exact (Tag.startFinish_keeps _ _).of_status
    | finish => exact (Tag.setResult_keeps _).delete.of_status
  · exact tag.proceedUnary_keeps ok Tag.setSuccess_keeps _
  · exact tag.proceedUnary_keeps ok Tag.setResult_keeps _
  · exact tag.proceedListen_keeps ok _

/-! ## Where a call stands -/

/-- A call of the client, given its promises and the number of operations of the call whose event was not handled. -/
inductive Stands (stub : Bool) (promises : List (Option Completion)) : Call → ℕ → Prop
  | entered {call : Call} (htag : call.tag = none) (hpc : call.pc = .enter) : Stands stub promises call 0
  | refused {call : Call} {promise : ℕ} {completion : Completion} (hkind : call.kind = .submit) (hstub : stub = false)
      (htag : call.tag = none) (hpc : call.pc = .returned (some promise))
      (hpromise : promises[promise]? = some (some completion)) : Stands stub promises call 0
  | submitted {call : Call} {tag : Tag} {promise : ℕ} (hkind : call.kind = .submit) (hstub : stub = true)
      (htag : call.tag = some tag) (howner : tag.promise = some promise)
      (hpc : call.pc = .start (some promise) ∨ call.pc = .returned (some promise))
      (hpromise : promises[promise]? = some none) : Stands stub promises call 0
  | unary {call : Call} {tag : Tag} {pending : ℕ} (hkind : call.kind = .cancel ∨ call.kind = .query)
      (htag : call.tag = some tag) (hcallback : tag.callback = false)
      (hpc : call.pc = .start none ∨ call.pc = .finish ∨ call.pc = .getFuture) : Stands stub promises call pending
  | listening {call : Call} {tag : Tag} {pending : ℕ} (hkind : call.kind = .listen) (htag : call.tag = some tag)
      (howner : tag.promise = none) (hpc : call.pc = .start none ∨ call.pc = .returned none) :
      Stands stub promises call pending

/-- The promises of the tags are their own, operations belong to calls, and only streams notify, or a client that has
no stub. -/
structure Answering (client : Client) : Prop where
  stands : ∀ (index : ℕ) call, client.calls[index]? = some call →
    Stands client.stub client.promises call (client.pending index)
  known : ∀ index, client.calls.length ≤ index → client.pending index = 0
  owned : ∀ (index : ℕ) call tag promise, client.calls[index]? = some call → call.tag = some tag →
    tag.promise = some promise → promise < client.promises.length
  distinct : ∀ (index other : ℕ) call call' tag tag' promise, client.calls[index]? = some call →
    client.calls[other]? = some call' → call.tag = some tag → call'.tag = some tag' → tag.promise = some promise →
    tag'.promise = some promise → index = other
  notified : ∀ entry ∈ client.notified, ∃ call, client.calls[entry.1]? = some call ∧
    (call.kind = .listen ∨ client.stub = false)

variable {client next : Client} {index : ℕ} {call : Call}

theorem answering_create (stub : Bool) : Answering (Client.create stub) where
  stands _ _ h := by cases h
  known _ _ := rfl
  owned _ _ _ _ h := by cases h
  distinct _ _ _ _ _ _ _ h := by cases h
  notified _ h := by cases h

/-- Promises are appended, and only the promise of a tag is completed. -/
theorem Stands.of_promises {stub : Bool} {promises promises' : List (Option Completion)} {pending : ℕ}
    (h : Stands stub promises call pending)
    (hcompleted : ∀ (promise : ℕ) completion, promises[promise]? = some (some completion) →
      promises'[promise]? = some (some completion))
    (hwaiting : ∀ tag promise, call.tag = some tag → tag.promise = some promise → promises[promise]? = some none →
      promises'[promise]? = some none) : Stands stub promises' call pending := by
  cases h with
  | entered htag hpc => exact .entered htag hpc
  | refused hkind hstub htag hpc hpromise => exact .refused hkind hstub htag hpc (hcompleted _ _ hpromise)
  | submitted hkind hstub htag howner hpc hpromise =>
    exact .submitted hkind hstub htag howner hpc (hwaiting _ _ htag howner hpromise)
  | unary hkind htag hcallback hpc => exact .unary hkind htag hcallback hpc
  | listening hkind htag howner hpc => exact .listening hkind htag howner hpc

/-- A step that changes neither the calls nor what is outstanding for them. -/
theorem Answering.of_frame (h : Answering client) (hstub : next.stub = client.stub) (hcalls : next.calls = client.calls)
    (hpromises : next.promises = client.promises) (hnotified : next.notified = client.notified)
    (hpending : ∀ index, next.pending index = client.pending index) : Answering next := by
  obtain ⟨hstands, hknown, howned, hdistinct, hnotified'⟩ := h
  refine ⟨?_, ?_, ?_, ?_, ?_⟩
  · rw [hstub, hpromises, hcalls]
    intro index call hcall
    rw [hpending]
    exact hstands index call hcall
  · intro index hle
    rw [hpending]
    exact hknown index (hcalls ▸ hle)
  · rw [hpromises, hcalls]
    exact howned
  · rw [hcalls]
    exact hdistinct
  · rw [hnotified, hcalls, hstub]
    exact hnotified'

/-- A step of one call or of its tag: others keep their promises, and what the call has new is its own. -/
theorem Answering.of_moved (h : Answering client) {call' : Call} (hcall : client.calls[index]? = some call)
    (hstub : next.stub = client.stub) (hcalls : next.calls = client.calls.set index call')
    (hkind : call'.kind = call.kind) (hpending : ∀ other, index ≠ other → next.pending other = client.pending other)
    (hlength : client.promises.length ≤ next.promises.length)
    (hcompleted : ∀ (promise : ℕ) completion, client.promises[promise]? = some (some completion) →
      next.promises[promise]? = some (some completion))
    (hwaiting : ∀ (other : ℕ) call'' tag promise, index ≠ other → client.calls[other]? = some call'' →
      call''.tag = some tag → tag.promise = some promise → client.promises[promise]? = some none →
      next.promises[promise]? = some none)
    (hstands : Stands client.stub next.promises call' (next.pending index))
    (howner : ∀ tag promise, call'.tag = some tag → tag.promise = some promise →
      (∃ old, call.tag = some old ∧ old.promise = some promise) ∨
        promise = client.promises.length ∧ promise < next.promises.length)
    (hnotified : ∀ entry ∈ next.notified, entry ∈ client.notified ∨
      entry.1 = index ∧ (call.kind = .listen ∨ client.stub = false)) : Answering next := by
  have hself : next.calls[index]? = some call' := by
    rw [hcalls, List.getElem?_set_self (lt_length_of_getElem? hcall)]
  have hother {other : ℕ} (hne : index ≠ other) : next.calls[other]? = client.calls[other]? := by
    rw [hcalls, List.getElem?_set_ne hne]
  -- the promise of the moved call is not that of another one
  have happart {other : ℕ} {call'' : Call} {tag tag' : Tag} {promise : ℕ} (hne : index ≠ other)
      (hcall'' : client.calls[other]? = some call'') (htag : call'.tag = some tag) (htag' : call''.tag = some tag')
      (hpromise : tag.promise = some promise) : tag'.promise ≠ some promise := by
    intro hpromise'
    obtain ⟨old, hold, hsame⟩ | ⟨hnew, -⟩ := howner tag promise htag hpromise
    · exact hne (h.distinct index other call call'' old tag' promise hcall hcall'' hold htag' hsame hpromise')
    · have hlt := h.owned other call'' tag' promise hcall'' htag' hpromise'
      omega
  constructor
  case stands =>
    intro other moved hmoved
    rw [hstub]
    rcases eq_or_ne index other with rfl | hne
    · cases hself.symm.trans hmoved
      exact hstands
    · rw [hother hne] at hmoved
      rw [hpending other hne]
      exact (h.stands other moved hmoved).of_promises hcompleted fun tag promise ↦
        hwaiting other moved tag promise hne hmoved
  case known =>
    intro other hle
    rw [hcalls, List.length_set] at hle
    have hne : index ≠ other := by
      have hlt := lt_length_of_getElem? hcall
      omega
    rw [hpending other hne]
    exact h.known other hle
  case owned =>
    intro other moved tag promise hmoved htag hpromise
    rcases eq_or_ne index other with rfl | hne
    · cases hself.symm.trans hmoved
      obtain ⟨old, hold, hsame⟩ | ⟨-, hlt⟩ := howner tag promise htag hpromise
      · exact Nat.lt_of_lt_of_le (h.owned index call old promise hcall hold hsame) hlength
      · exact hlt
    · rw [hother hne] at hmoved
      exact Nat.lt_of_lt_of_le (h.owned other moved tag promise hmoved htag hpromise) hlength
  case distinct =>
    intro first second moved moved' tag tag' promise hmoved hmoved' htag htag' hpromise hpromise'
    rcases eq_or_ne index first with rfl | hne <;> rcases eq_or_ne index second with rfl | hne'
    · rfl
    · cases hself.symm.trans hmoved
      rw [hother hne'] at hmoved'
      exact absurd hpromise' (happart hne' hmoved' htag htag' hpromise)
    · cases hself.symm.trans hmoved'
      rw [hother hne] at hmoved
      exact absurd hpromise (happart hne hmoved htag' htag hpromise')
    · rw [hother hne] at hmoved
      rw [hother hne'] at hmoved'
      exact h.distinct first second moved moved' tag tag' promise hmoved hmoved' htag htag' hpromise hpromise'
  case notified =>
    intro entry hentry
    rw [hstub]
    obtain hold | ⟨rfl, hallowed⟩ := hnotified entry hentry
    · obtain ⟨noted, hnoted, hallowed⟩ := h.notified entry hold
      rcases eq_or_ne index entry.1 with heq | hne
      · subst heq
        cases hcall.symm.trans hnoted
        exact ⟨call', hself, hkind ▸ hallowed⟩
      · exact ⟨noted, (hother hne).trans hnoted, hallowed⟩
    · exact ⟨call', hself, hkind ▸ hallowed⟩

/-! ## Client methods -/

/-- The thread of a call moves on and makes no promise. -/
theorem Answering.update (h : Answering client) {call' : Call} {started : Option OpKind}
    (hcall : client.calls[index]? = some call) (hkind : call'.kind = call.kind)
    (howner : ∀ tag promise, call'.tag = some tag → tag.promise = some promise →
      ∃ old, call.tag = some old ∧ old.promise = some promise)
    (hstands : Stands client.stub client.promises call' (client.pending index + started.isSome.toNat)) :
    Answering (client.update index call' started) := by
  refine h.of_moved hcall rfl rfl hkind (fun other hne ↦ ?_) (Nat.le_refl _) (fun _ _ hcompleted ↦ hcompleted)
    (fun _ _ _ _ _ _ _ _ hwaiting ↦ hwaiting) ?_
    (fun tag promise htag hpromise ↦ .inl (howner tag promise htag hpromise)) fun entry hentry ↦ .inl hentry
  · rw [pending_update, if_neg hne, Nat.add_zero]
  · rw [pending_update, if_pos rfl]
    exact hstands

/-- The call makes a promise, which no other one has. -/
theorem Answering.promise (h : Answering client) {call' : Call} {entry : Option Completion}
    {notes : List (ℕ × Task × Status)} (hcall : client.calls[index]? = some call) (hkind : call'.kind = call.kind)
    (howner : ∀ tag promise, call'.tag = some tag → tag.promise = some promise → promise = client.promises.length)
    (hstands : Stands client.stub (client.promises ++ [entry]) call' (client.pending index))
    (hnotes : ∀ note ∈ notes, note.1 = index ∧ client.stub = false) :
    Answering { client.update index call' none with
      promises := client.promises ++ [entry], notified := client.notified ++ notes } := by
  have hkept {promise : ℕ} {old : Option Completion} (hold : client.promises[promise]? = some old) :
      (client.promises ++ [entry])[promise]? = some old := by
    rw [List.getElem?_append_left (lt_length_of_getElem? hold), hold]
  have hlength : (client.promises ++ [entry]).length = client.promises.length + 1 := by simp
  refine h.of_moved hcall rfl rfl hkind (fun other hne ↦ ?_) (by rw [hlength]; exact Nat.le_succ _)
    (fun _ _ hcompleted ↦ hkept hcompleted) (fun _ _ _ _ _ _ _ _ hwaiting ↦ hkept hwaiting) ?_
    (fun tag promise htag hpromise ↦ .inr ?_) fun note hnote ↦ ?_
  · change (client.update index call' none).pending other = client.pending other
    rw [pending_update, if_neg hne, Nat.add_zero]
  · change Stands client.stub (client.promises ++ [entry]) call' ((client.update index call' none).pending index)
    rw [pending_update, if_pos rfl]
    exact hstands
  · have hnew := howner tag promise htag hpromise
    exact ⟨hnew, by rw [hlength]; omega⟩
  · obtain hold | hnew := List.mem_append.mp hnote
    · exact .inl hold
    · exact .inr ⟨(hnotes note hnew).1, .inr (hnotes note hnew).2⟩

theorem Answering.promise_silently (h : Answering client) {call' : Call} {entry : Option Completion}
    (hcall : client.calls[index]? = some call) (hkind : call'.kind = call.kind)
    (howner : ∀ tag promise, call'.tag = some tag → tag.promise = some promise → promise = client.promises.length)
    (hstands : Stands client.stub (client.promises ++ [entry]) call' (client.pending index)) :
    Answering { client.update index call' none with promises := client.promises ++ [entry] } :=
  (h.promise hcall hkind howner hstands (List.forall_mem_nil _)).of_frame rfl rfl rfl (List.append_nil _).symm
    fun _ ↦ rfl

theorem Answering.crash (h : Answering client) : Answering client.crash :=
  h.of_frame rfl rfl rfl rfl fun _ ↦ rfl

/-- The tag of `cancel_task_async` or `query_status_async`. -/
theorem Answering.newTag (h : Answering client) {machine : Machine} (hcall : client.calls[index]? = some call)
    (hkind : call.kind = .cancel ∨ call.kind = .query) : Answering (client.newTag index call machine) := by
  refine h.promise_silently hcall rfl ?_ (.unary hkind rfl rfl (.inl rfl))
  rintro _ _ ⟨⟩ ⟨⟩
  rfl

theorem Answering.enter (h : Answering client) (hcall : client.calls[index]? = some call) (htag : call.tag = none)
    (hpending : client.pending index = 0) : Answering (client.enter index call) := by
  have hlast (entry : Option Completion) : (client.promises ++ [entry])[client.promises.length]? = some entry := by simp
  cases hkind : call.kind with
  | submit =>
    cases hstub : client.stub with
    | false =>
      simp only [Client.enter, hkind, hstub]
      refine h.promise hcall hkind.symm (fun tag promise htag' ↦ ?_) ?_ fun note hnote ↦ ?_
      · cases htag.symm.trans htag'
      · rw [hpending]
        exact .refused rfl hstub htag rfl (hlast _)
      · split at hnote
        · cases List.mem_singleton.mp hnote
          exact ⟨rfl, hstub⟩
        · cases hnote
    | true =>
      simp only [Client.enter, hkind, hstub]
      refine h.promise_silently hcall hkind.symm ?_ ?_
      · rintro _ _ ⟨⟩ ⟨⟩
        rfl
      · rw [hpending]
        exact .submitted rfl hstub rfl rfl (.inl rfl) (hlast _)
  | cancel =>
    cases hstub : client.stub with
    | false =>
      simp only [Client.enter, hkind, hstub]
      exact h.crash
    | true =>
      simp only [Client.enter, hkind, hstub]
      exact h.newTag hcall (.inl hkind)
  | query =>
    cases hstub : client.stub with
    | false =>
      simp only [Client.enter, hkind, hstub]
      exact h.crash
    | true =>
      simp only [Client.enter, hkind, hstub]
      exact h.newTag hcall (.inr hkind)
  | listen =>
    cases hstub : client.stub with
    | false =>
      simp only [Client.enter, hkind, hstub]
      exact h.crash
    | true =>
      simp only [Client.enter, hkind, hstub]
      exact h.update hcall hkind.symm (by rintro _ _ ⟨⟩ ⟨⟩) (.listening rfl rfl rfl (.inl rfl))

theorem Answering.advance (h : Answering client) (hcall : client.calls[index]? = some call)
    (hstep : client.advance index call = some next) : Answering next := by
  have hstands := h.stands index call hcall
  generalize hpending : client.pending index = pending at hstands
  cases hstands with
  | entered htag hpc =>
    simp only [Client.advance, hpc, Option.some.injEq] at hstep
    subst hstep
    exact h.enter hcall htag hpending
  | refused hkind hstub htag hpc hpromise => simp [Client.advance, hpc] at hstep
  | submitted hkind hstub htag howner hpc hpromise =>
    obtain hpc | hpc := hpc
    · simp only [Client.advance, hpc, hkind, Option.some.injEq] at hstep
      subst hstep
      refine h.update hcall hkind.symm (fun tag promise htag' hpromise' ↦ ⟨tag, htag', hpromise'⟩) ?_
      rw [hpending]
      exact .submitted rfl hstub htag howner (.inr rfl) hpromise
    · simp [Client.advance, hpc] at hstep
  | unary hkind htag hcallback hpc =>
    obtain hpc | hpc | hpc := hpc
    · have hnext : client.advance index call = some (client.update index { call with pc := .finish } none) := by
        obtain hkind | hkind := hkind <;> simp only [Client.advance, hpc, hkind]
      obtain rfl := Option.some.inj (hnext.symm.trans hstep)
      refine h.update hcall rfl (fun tag promise htag' hpromise' ↦ ⟨tag, htag', hpromise'⟩) ?_
      exact .unary hkind htag hcallback (.inr (.inl rfl))
    · simp only [Client.advance, hpc, Option.some.injEq, htag, Option.map_some] at hstep
      subst hstep
      refine h.update hcall rfl ?_ (.unary hkind rfl hcallback (.inr (.inr rfl)))
      rintro _ promise ⟨⟩ hpromise
      exact ⟨_, htag, hpromise⟩
    · simp only [Client.advance, hpc, Option.some.injEq] at hstep
      subst hstep
      exact h.crash
  | listening hkind htag howner hpc =>
    obtain hpc | hpc := hpc
    · simp only [Client.advance, hpc, hkind, Option.some.injEq] at hstep
      subst hstep
      refine h.update hcall hkind.symm (fun tag promise htag' hpromise' ↦ ⟨tag, htag', hpromise'⟩) ?_
      exact .listening rfl htag howner (.inr rfl)
    · simp [Client.advance, hpc] at hstep

/-! ## Events -/

/-- Completing the promise of a tag leaves all others as they are. -/
theorem of_fulfil {promises promises' : List (Option Completion)} {owner : Option ℕ} {completion : Option Completion}
    (h : Client.fulfil promises owner completion = some promises') :
    promises'.length = promises.length ∧
      (∀ (promise : ℕ) old, promises[promise]? = some (some old) → promises'[promise]? = some (some old)) ∧
      ∀ (promise : ℕ), owner ≠ some promise → promises'[promise]? = promises[promise]? := by
  unfold Client.fulfil at h
  split at h
  · cases h
    exact ⟨rfl, fun _ _ hold ↦ hold, fun _ _ ↦ rfl⟩
  · obtain ⟨own, rfl, hset⟩ := Option.bind_eq_some_iff.mp h
    split at hset
    · rename_i hwaiting
      cases hset
      refine ⟨List.length_set .., fun promise old hold ↦ ?_, fun promise hne ↦ ?_⟩
      · rw [List.getElem?_set_ne ?_, hold]
        rintro rfl
        cases hwaiting.symm.trans hold
      · rw [List.getElem?_set_ne fun heq ↦ hne (by rw [heq])]
    · cases hset

/-- `CompleteRpc` handles an event: the call has an operation, so it is no submission. -/
theorem Answering.proceeds (h : Answering client) {op : Op} {event : Event}
    (hcompleter : client.completer = .proceed op event) (hproceeds : Proceeds client op event next) :
    Answering next := by
  cases hproceeds with
  | crash => exact h.crash
  | moves hcall htag hlive houtcome hpassed hfulfil =>
    rename_i call tag outcome promises
    obtain ⟨hlength, hcompleted, hkept⟩ := of_fulfil hfulfil
    have hkeeps : outcome.Keeps tag := by
      obtain ⟨hpromise, hcallback⟩ := tag.receive_keeps op.kind event
      have hproceed := (tag.receive op.kind event).proceed_keeps event.ok
      rw [← houtcome] at hproceed
      refine ⟨hproceed.promise.trans hpromise, hproceed.callback.trans hcallback, fun hsilent ↦ ?_⟩
      exact hproceed.silent (hcallback.trans hsilent)
    have hpos : 0 < client.pending op.call := by
      simp [Client.pending, hcompleter, CompleterPc.holds]
    have hstands := h.stands op.call call hcall
    refine h.of_moved hcall rfl rfl rfl (fun other hne ↦ ?_) (Nat.le_of_eq hlength.symm) hcompleted
      (fun other call' tag' promise hne hcall' htag' hpromise hwaiting ↦ ?_) ?_ (fun tag' promise htag' hpromise ↦ ?_)
      fun note hnote ↦ ?_
    · generalize hafter : Client.mk _ _ _ _ _ _ _ _ _ _ = after
      have hother : after.pending other + _ = client.pending other + _ :=
        pending_proceed hcompleter (by rw [← hafter]) (by rw [← hafter]) other
      rw [if_neg hne, if_neg hne] at hother
      exact hother
    · rw [hkept promise, hwaiting]
      intro hsame
      exact hne (h.distinct op.call other call call' tag tag' promise hcall hcall' htag htag' hsame hpromise)
    · generalize client.pending op.call = pending at hstands hpos
      cases hstands with
      | unary hkind hown hcallback hpc =>
        cases htag.symm.trans hown
        exact .unary hkind rfl (hkeeps.callback.trans hcallback) hpc
      | listening hkind hown howner hpc =>
        cases htag.symm.trans hown
        exact .listening hkind rfl (hkeeps.promise.trans howner) hpc
      | _ => omega
    · cases htag'
      exact .inl ⟨tag, htag, hkeeps.promise.symm.trans hpromise⟩
    · obtain hold | hnew := List.mem_append.mp hnote
      · exact .inl hold
      · obtain ⟨told, htold, rfl⟩ := List.mem_map.mp hnew
        refine .inr ⟨rfl, ?_⟩
        generalize client.pending op.call = pending at hstands hpos
        cases hstands with
        | unary hkind hown hcallback hpc =>
          cases htag.symm.trans hown
          rw [hkeeps.silent hcallback] at htold
          cases htold
        | listening hkind => exact .inl hkind
        | _ => omega

theorem Answering.step {action : Action} (h : Answering client) (hstep : step client action = some next) :
    Answering next := by
  cases move_of_step hstep with
  | call hidle =>
    rename_i kind callback
    refine ⟨fun index call hcall ↦ ?_, fun index hle ↦ ?_, fun index call tag promise hcall htag ↦ ?_,
      fun index other call call' tag tag' promise hcall hcall' htag htag' ↦ ?_, fun entry hentry ↦ ?_⟩
    · obtain hold | ⟨rfl, rfl⟩ := of_getElem?_append_singleton hcall
      · exact h.stands index call hold
      · change Stands client.stub client.promises _ (client.pending client.calls.length)
        rw [h.known client.calls.length (Nat.le_refl _)]
        exact .entered rfl rfl
    · rw [List.length_append] at hle
      exact h.known index (Nat.le_trans (Nat.le_add_right _ _) hle)
    · obtain hold | ⟨-, rfl⟩ := of_getElem?_append_singleton hcall
      · exact h.owned index call tag promise hold htag
      · cases htag
    · obtain hold | ⟨-, rfl⟩ := of_getElem?_append_singleton hcall
      · obtain hold' | ⟨-, rfl⟩ := of_getElem?_append_singleton hcall'
        · exact h.distinct index other call call' tag tag' promise hold hold' htag htag'
        · cases htag'
      · cases htag
    · obtain ⟨call, hcall, hallowed⟩ := h.notified entry hentry
      refine ⟨call, ?_, hallowed⟩
      rw [List.getElem?_append_left (lt_length_of_getElem? hcall), hcall]
  | advance hcall hadvance => exact h.advance hcall hadvance
  | complete hcomplete =>
    have hpending := hcomplete.pending_eq
    cases hcomplete with
    | proceeds hcompleter => exact h.proceeds hcompleter (proceeds_proceed _ _)
    | tests hcompleter | takes hcompleter _ | ends hcompleter _ _ | waits hcompleter =>
      exact h.of_frame rfl rfl rfl rfl (hpending (by simp [hcompleter]))
  | destroy hdestroy =>
    obtain ⟨shutdown, queueShutdown, destructor, -, rfl⟩ := destroy_frame hdestroy
    exact h.of_frame rfl rfl rfl rfl fun _ ↦ rfl

theorem stub_of_step {action : Action} (hstep : step client action = some next) : next.stub = client.stub := by
  cases move_of_step hstep with
  | call => rfl
  | advance hcall hadvance =>
    unfold Client.advance at hadvance
    split at hadvance
    · cases hadvance
      unfold Client.enter
      split <;> rfl
    · split at hadvance <;> cases hadvance <;> rfl
    · cases hadvance
      rfl
    · cases hadvance
      rfl
    · cases hadvance
  | complete hcomplete =>
    cases hcomplete with
    | proceeds hcompleter =>
      rename_i op event
      have hproceeds : Proceeds client op event (client.proceed op event) := proceeds_proceed op event
      generalize client.proceed op event = after at hproceeds
      cases hproceeds <;> rfl
    | _ => rfl
  | destroy hdestroy =>
    obtain ⟨shutdown, queueShutdown, destructor, -, rfl⟩ := destroy_frame hdestroy
    rfl

/-! ## Runs -/

/-- In every run of the client, with any events: a future that a method has returned is ready if and only if the client
has no stub; no call of `cancel_task_async` or `query_status_async` ever returns; and if the client has a stub, the
callbacks that are called are those of streams. -/
theorem futures_ready_iff (stub : Bool) (actions : List Action) (final : Client)
    (hrun : run step (Client.create stub) actions = some final) :
    (∀ call ∈ final.calls, ∀ future, call.pc = .returned (some future) →
        ∃ completion, final.promises[future]? = some completion ∧ (completion.isSome = true ↔ stub = false)) ∧
      (∀ call ∈ final.calls, call.kind = .cancel ∨ call.kind = .query → call.pc.isReturned = false) ∧
      (stub = true → ∀ entry ∈ final.notified,
        ∃ call, final.calls[entry.1]? = some call ∧ call.kind = .listen) := by
  obtain ⟨h, rfl⟩ : Answering final ∧ final.stub = stub :=
    run_invariant (I := fun visited ↦ Answering visited ∧ visited.stub = stub)
      (fun _ _ _ h hstep ↦ ⟨h.1.step hstep, (stub_of_step hstep).trans h.2⟩) ⟨answering_create stub, rfl⟩ hrun
  refine ⟨fun call hmem future hpc ↦ ?_, fun call hmem hkind ↦ ?_, fun hstub entry hentry ↦ ?_⟩
  · obtain ⟨index, hcall⟩ := List.mem_iff_getElem?.mp hmem
    have hstands := h.stands index call hcall
    generalize final.pending index = pending at hstands
    cases hstands with
    | refused hkind hstub htag hpc' hpromise =>
      cases hpc.symm.trans hpc'
      exact ⟨_, hpromise, iff_of_true rfl hstub⟩
    | submitted hkind hstub htag howner hpc' hpromise =>
      obtain hpc' | hpc' := hpc'
      · cases hpc.symm.trans hpc'
      · cases hpc.symm.trans hpc'
        exact ⟨none, hpromise, iff_of_false (by simp) (by simp [hstub])⟩
    | entered htag hpc' => cases hpc.symm.trans hpc'
    | unary hkind htag hcallback hpc' => obtain hpc' | hpc' | hpc' := hpc' <;> cases hpc.symm.trans hpc'
    | listening hkind htag howner hpc' => obtain hpc' | hpc' := hpc' <;> cases hpc.symm.trans hpc'
  · obtain ⟨index, hcall⟩ := List.mem_iff_getElem?.mp hmem
    have hstands := h.stands index call hcall
    generalize final.pending index = pending at hstands
    cases hstands with
    | refused hkind' | submitted hkind' | listening hkind' =>
      rw [hkind'] at hkind
      obtain hkind | hkind := hkind <;> cases hkind
    | entered htag hpc =>
      rw [hpc]
      rfl
    | unary hkind' htag hcallback hpc => obtain hpc | hpc | hpc := hpc <;> rw [hpc] <;> rfl
  · obtain ⟨call, hcall, hlisten | hnone⟩ := h.notified entry hentry
    · exact ⟨call, hcall, hlisten⟩
    · rw [hstub] at hnone
      cases hnone

/-- A task is submitted, and a stream delivers one result. -/
def submitAndListen : List Action :=
  [.call .submit true, .advance 0, .advance 0, .call .listen true, .advance 1, .advance 1, .complete .timeout,
    .complete (.gotEvent ⟨1, .startCall⟩ { ok := true }), .complete .timeout, .complete .timeout,
    .complete (.gotEvent ⟨1, .read⟩ { ok := true, response := { task := some { taskId := "job" } } }),
    .complete .timeout]

theorem futures_ready_iff_submitted :
    ∃ final, run step (Client.create true) submitAndListen = some final ∧
      final.calls.map Call.pc = [.returned (some 0), .returned none] ∧
      (∃ completion, final.promises[0]? = some completion ∧ completion.isSome = false) ∧
      final.notified.map Prod.fst = [1] ∧ ∃ call, final.calls[1]? = some call ∧ call.kind = .listen := by
  have hrun : run step (Client.create true) submitAndListen = some _ := rfl
  obtain ⟨hfutures, -, hnotified⟩ := futures_ready_iff true submitAndListen _ hrun
  obtain ⟨completion, hpromise, hready⟩ := hfutures _ List.mem_cons_self 0 rfl
  refine ⟨_, hrun, rfl, ⟨completion, hpromise, ?_⟩, rfl, hnotified rfl _ List.mem_cons_self⟩
  rw [← Bool.not_eq_true, hready]
  simp

end TinyReactor.GrpcClient
