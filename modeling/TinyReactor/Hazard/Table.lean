import TinyReactor.Hazard.Moves
import TinyReactor.Transition.Undefined

/-!
# The table of threads

`all_thread_data_` is changed under `thread_data_mutex_` and read by the loop of `Scan` under
`global_retired_mutex_`, so nothing keeps the two apart, and the addresses in it are those of `thread_local`
variables, which nothing keeps alive. Where the table is left alone during the loops and the threads in it
have not exited, every statement is defined.
-/

namespace TinyReactor.Hazard

open Transition

variable {π : Type*}

/-- The thread walks over `all_thread_data_`. -/
def Pc.inLoop : Pc π → Bool
  | .scan (.loop _ _) => true
  | _ => false

namespace Domain

/-- The next statement of the thread changes `all_thread_data_`. -/
def ChangesTable (domain : Domain π) (thread : ThreadId) : Prop :=
  domain.pcs thread = .register .update ∨
    (domain.pcs thread = .unregister .update ∧ thread ∈ domain.allThreadData)

/-- The next statement of the thread is undefined. -/
def undefined (domain : Domain π) (thread : ThreadId) : Bool :=
  match domain.pcs thread with
  | .scan (.loop index count) =>
      !domain.iteratorsValid thread ||
        (decide (index < count) && domain.allThreadData[index]?.any fun owner ↦ (domain.pcs owner).isExited)
  | .unregister .update => domain.allThreadData.any fun owner ↦ (domain.pcs owner).isExited
  | _ => false

end Domain

/-- Nobody changes `all_thread_data_` while a scan walks over it, and no thread exits that is in it. -/
def TableKept (domain : Domain π) : Action π → Prop
  | .step thread => domain.ChangesTable thread → ∀ scanner, (domain.pcs scanner).inLoop = false
  | .exit thread => thread ∉ domain.allThreadData
  | .call _ _ => True

/-! ## How the table is used -/

/-- A step to the program point, by what it does to the table and the iterators into it. -/
inductive TableMove (domain next : Domain π) : Action π → Pc π → Prop
  | apart {action : Action π} {pc' : Pc π} (hall : next.allThreadData = domain.allThreadData)
      (hvalid : next.iteratorsValid = domain.iteratorsValid) (hloop : pc'.inLoop = false)
      (halive : pc'.isExited = false) : TableMove domain next action pc'
  | start (thread : ThreadId) (hall : next.allThreadData = domain.allThreadData)
      (hvalid : next.iteratorsValid = Function.update domain.iteratorsValid thread true) :
      TableMove domain next (.step thread) (.scan (.loop 0 domain.allThreadData.length))
  | walk {thread : ThreadId} {index count : ℕ} (hpc : domain.pcs thread = .scan (.loop index count))
      (hall : next.allThreadData = domain.allThreadData) (hvalid : next.iteratorsValid = domain.iteratorsValid) :
      TableMove domain next (.step thread) (.scan (.loop (index + 1) count))
  | change {thread : ThreadId} {pc' : Pc π} (hchanges : domain.ChangesTable thread)
      (hknown : ∀ owner ∈ next.allThreadData, owner ∈ domain.allThreadData ∨ owner = thread)
      (hloop : pc'.inLoop = false) (halive : pc'.isExited = false) : TableMove domain next (.step thread) pc'
  | exit (thread : ThreadId) (hall : next.allThreadData = domain.allThreadData)
      (hvalid : next.iteratorsValid = domain.iteratorsValid) : TableMove domain next (.exit thread) .exited

namespace Domain

variable {domain next : Domain π} {thread : ThreadId}

theorem scanStep_tableMove {pc : ScanPc} (hpc : domain.pcs thread = .scan pc)
    (h : domain.scanStep thread pc = some next) :
    ∃ pc', next.pcs = Function.update domain.pcs thread pc' ∧ TableMove domain next (.step thread) pc' := by
  cases scanMove_of_step h with
  | start => exact ⟨_, rfl, .start thread rfl rfl⟩
  | splice => exact ⟨_, rfl, .walk hpc rfl rfl⟩
  | _ => exact ⟨_, rfl, .apart rfl rfl rfl rfl⟩

theorem registerStep_tableMove {pc : RegisterPc} (hpc : domain.pcs thread = .register pc)
    (h : domain.registerStep thread .register (some (domain.allThreadData ++ [thread])) pc = some next) :
    ∃ pc', next.pcs = Function.update domain.pcs thread pc' ∧ TableMove domain next (.step thread) pc' := by
  cases registerMove_of_step h with
  | update table htable =>
    cases htable
    refine ⟨_, rfl, .change (.inl hpc) ?_ rfl rfl⟩
    intro owner howner
    rcases List.mem_append.mp howner with hold | hnew
    · exact .inl hold
    · exact .inr (List.mem_singleton.mp hnew)
  | _ => exact ⟨_, rfl, .apart rfl rfl rfl rfl⟩

theorem unregisterStep_tableMove {pc : RegisterPc} (hpc : domain.pcs thread = .unregister pc)
    (h : domain.registerStep thread .unregister (domain.removeThread thread) pc = some next) :
    ∃ pc', next.pcs = Function.update domain.pcs thread pc' ∧ TableMove domain next (.step thread) pc' := by
  cases registerMove_of_step h with
  | update table htable =>
    unfold removeThread at htable
    split at htable
    · cases htable
    · cases htable
      by_cases hmem : thread ∈ domain.allThreadData
      · exact ⟨_, rfl, .change (.inr ⟨hpc, hmem⟩) (fun owner howner ↦ .inl (List.mem_of_mem_filter howner)) rfl rfl⟩
      · have hsame : domain.allThreadData.filter (· ≠ thread) = domain.allThreadData := by
          rw [List.filter_eq_self]
          intro owner howner
          exact decide_eq_true (ne_of_mem_of_not_mem howner hmem)
        exact ⟨_, rfl, .apart hsame (if_pos hsame) rfl rfl⟩
  | _ => exact ⟨_, rfl, .apart rfl rfl rfl rfl⟩

theorem advance_tableMove [DecidableEq π] (h : domain.advance thread (domain.pcs thread) = some next) :
    ∃ pc', next.pcs = Function.update domain.pcs thread pc' ∧ TableMove domain next (.step thread) pc' := by
  cases hpc : domain.pcs thread with
  | idle | exited =>
    rw [hpc] at h
    cases h
  | acquire holder pc =>
    rw [hpc] at h
    cases acquireMove_of_step h <;> exact ⟨_, rfl, .apart rfl rfl rfl rfl⟩
  | release holder pc source =>
    rw [hpc] at h
    cases h
    cases pc with
    | clearSlot => cases source <;> exact ⟨_, rfl, .apart rfl rfl rfl rfl⟩
    | _ => exact ⟨_, rfl, .apart rfl rfl rfl rfl⟩
  | take holder source | protect slot ptr =>
    rw [hpc] at h
    cases h
    exact ⟨_, rfl, .apart rfl rfl rfl rfl⟩
  | retire pc =>
    rw [hpc] at h
    cases retireMove_of_step h <;> exact ⟨_, rfl, .apart rfl rfl rfl rfl⟩
  | scan pc =>
    rw [hpc] at h
    exact scanStep_tableMove hpc h
  | reclaim pc =>
    rw [hpc] at h
    cases reclaimMove_of_step h <;> exact ⟨_, rfl, .apart rfl rfl rfl rfl⟩
  | register pc =>
    rw [hpc] at h
    exact registerStep_tableMove hpc h
  | unregister pc =>
    rw [hpc] at h
    exact unregisterStep_tableMove hpc h

theorem enter_tableMove {op : Op π} (hidle : domain.pcs thread = .idle) (h : domain.enter thread op = some next) :
    ∃ pc', next.pcs = Function.update domain.pcs thread pc' ∧ TableMove domain next (.call thread op) pc' := by
  have hstays : Function.update domain.pcs thread .idle = domain.pcs :=
    hidle ▸ Function.update_eq_self thread domain.pcs
  have hentered (holder : HolderId) (source : Option HolderId) :
      (domain.enterRelease holder source).inLoop = false ∧ (domain.enterRelease holder source).isExited = false := by
    unfold enterRelease
    cases domain.holders holder <;> cases source <;> exact ⟨rfl, rfl⟩
  cases op with
  | construct holder =>
    simp only [enter] at h
    split at h <;> cases h
    exact ⟨_, rfl, .apart rfl rfl rfl rfl⟩
  | moveConstruct holder source =>
    simp only [enter] at h
    split at h <;> cases h
    exact ⟨.idle, hstays.symm, .apart rfl rfl rfl rfl⟩
  | moveAssign holder source =>
    simp only [enter] at h
    split at h <;> cases h
    · exact ⟨.idle, hstays.symm, .apart rfl rfl rfl rfl⟩
    · exact ⟨_, rfl, .apart rfl rfl (hentered holder (some source)).1 (hentered holder (some source)).2⟩
  | release holder =>
    cases h
    exact ⟨_, rfl, .apart rfl rfl (hentered holder none).1 (hentered holder none).2⟩
  | protect holder ptr =>
    cases h
    refine ⟨_, rfl, .apart rfl rfl ?_ ?_⟩ <;> cases domain.holders holder <;> rfl
  | _ =>
    cases h
    exact ⟨_, rfl, .apart rfl rfl rfl rfl⟩

end Domain

variable [DecidableEq π] {domain next : Domain π} {action : Action π}

/-- Inversion of a step, for the table of threads. -/
theorem step_tableMove (hstep : step domain action = some next) :
    ∃ pc', next.pcs = Function.update domain.pcs action.thread pc' ∧ TableMove domain next action pc' := by
  cases action with
  | call thread op =>
    obtain ⟨hidle, henter⟩ := enter_of_call hstep
    exact Domain.enter_tableMove hidle henter
  | step thread => exact Domain.advance_tableMove hstep
  | exit thread =>
    obtain ⟨-, rfl⟩ := eq_of_exit hstep
    exact ⟨_, rfl, .exit thread rfl rfl⟩

/-- Only the acting thread can get into the table. -/
theorem mem_allThreadData_of_step (hstep : step domain action = some next) {owner : ThreadId}
    (howner : owner ∈ next.allThreadData) : owner ∈ domain.allThreadData ∨ owner = action.thread := by
  obtain ⟨pc', -, hmove⟩ := step_tableMove hstep
  cases hmove with
  | change _ hknown => exact hknown owner howner
  | apart hall | start _ hall | walk _ hall | exit _ hall => exact .inl (hall ▸ howner)

/-- The table does not change under a scan. -/
theorem allThreadData_eq_of_step (hkept : TableKept domain action) (hstep : step domain action = some next)
    {scanner : ThreadId} (hloop : (domain.pcs scanner).inLoop = true) : next.allThreadData = domain.allThreadData := by
  obtain ⟨pc', -, hmove⟩ := step_tableMove hstep
  cases hmove with
  | change hchanges =>
    rw [hkept hchanges scanner] at hloop
    cases hloop
  | apart hall | start _ hall | walk _ hall | exit _ hall => exact hall

/-! ## Kept tables -/

/-- The iterators of every loop span the table, and its threads are alive. -/
structure Domain.Tabled (domain : Domain π) : Prop where
  spans : ∀ scanner index count, domain.pcs scanner = .scan (.loop index count) →
    domain.iteratorsValid scanner = true ∧ count = domain.allThreadData.length
  alive : ∀ owner ∈ domain.allThreadData, (domain.pcs owner).isExited = false

omit [DecidableEq π] in
theorem tabled_empty : ({} : Domain π).Tabled where
  spans := by
    intro scanner index count hpc
    cases hpc
  alive := by
    intro owner howner
    cases howner

omit [DecidableEq π] in
theorem Pc.inLoop_of_eq {pc : Pc π} {index count : ℕ} (h : pc = .scan (.loop index count)) : pc.inLoop = true := by
  rw [h]
  rfl

omit [DecidableEq π] in
theorem Domain.Tabled.spans_of_move (h : domain.Tabled) (hkept : TableKept domain action) {pc' : Pc π}
    (hmove : TableMove domain next action pc') (hpcs : next.pcs = Function.update domain.pcs action.thread pc')
    {scanner : ThreadId} {index count : ℕ} (hscanner : next.pcs scanner = .scan (.loop index count)) :
    next.iteratorsValid scanner = true ∧ count = next.allThreadData.length := by
  rw [hpcs] at hscanner
  by_cases hthread : scanner = action.thread
  · subst hthread
    rw [Function.update_self] at hscanner
    cases hmove with
    | apart _ _ hloop | change _ _ hloop =>
      rw [Pc.inLoop_of_eq hscanner] at hloop
      cases hloop
    | start thread hall hvalid =>
      cases hscanner
      rw [hvalid, hall]
      exact ⟨Function.update_self .., rfl⟩
    | walk hpc hall hvalid =>
      cases hscanner
      rw [hvalid, hall]
      exact h.spans _ _ _ hpc
    | exit => cases hscanner
  · rw [Function.update_of_ne hthread] at hscanner
    cases hmove with
    | change hchanges =>
      have hloop := hkept hchanges scanner
      rw [Pc.inLoop_of_eq hscanner] at hloop
      cases hloop
    | start thread hall hvalid =>
      rw [Action.thread] at hthread
      rw [hvalid, hall, Function.update_of_ne hthread]
      exact h.spans scanner index count hscanner
    | apart hall hvalid | walk _ hall hvalid | exit _ hall hvalid =>
      rw [hvalid, hall]
      exact h.spans scanner index count hscanner

theorem Domain.Tabled.step (h : domain.Tabled) (hkept : TableKept domain action)
    (hstep : step domain action = some next) : next.Tabled := by
  obtain ⟨pc', hpcs, hmove⟩ := step_tableMove hstep
  refine ⟨fun scanner index count hscanner ↦ h.spans_of_move hkept hmove hpcs hscanner, fun owner howner ↦ ?_⟩
  rw [hpcs]
  rcases eq_or_ne owner action.thread with rfl | hne
  · rw [Function.update_self]
    cases hmove with
    | apart _ _ _ halive | change _ _ _ halive => exact halive
    | start | walk => rfl
    | exit thread hall => exact absurd (hall ▸ howner) hkept
  · rw [Function.update_of_ne hne]
    exact h.alive owner ((mem_allThreadData_of_step hstep howner).resolve_right hne)

omit [DecidableEq π] in
theorem Domain.Tabled.removeThread_eq (h : domain.Tabled) (thread : ThreadId) :
    domain.removeThread thread = some (domain.allThreadData.filter (· ≠ thread)) :=
  if_neg (by simpa using h.alive)

/-- `TableKept`, checked for some threads, which are the only ones that act. -/
def KeptAmong (threads : Finset ThreadId) (domain : Domain π) (action : Action π) : Prop :=
  action.thread ∈ threads ∧
    match action with
    | .step thread => domain.ChangesTable thread → ∀ scanner ∈ threads, (domain.pcs scanner).inLoop = false
    | .exit thread => thread ∉ domain.allThreadData
    | .call _ _ => True

instance (domain : Domain π) (thread : ThreadId) : Decidable (domain.ChangesTable thread) :=
  inferInstanceAs (Decidable (_ ∨ _))

instance (threads : Finset ThreadId) (domain : Domain π) :
    (action : Action π) → Decidable (KeptAmong threads domain action)
  | .step thread => inferInstanceAs (Decidable (thread ∈ threads ∧
      (domain.ChangesTable thread → ∀ scanner ∈ threads, (domain.pcs scanner).inLoop = false)))
  | .exit thread => inferInstanceAs (Decidable (thread ∈ threads ∧ thread ∉ domain.allThreadData))
  | .call thread _ => inferInstanceAs (Decidable (thread ∈ threads ∧ True))

theorem Meets.tableKept {threads : Finset ThreadId} {actions : List (Action π)}
    (h : Meets Hazard.step (KeptAmong threads) {} actions) : Meets Hazard.step TableKept {} actions := by
  refine h.strengthen (I := fun domain ↦ ∀ thread ∉ threads, domain.pcs thread = .idle) ?_ ?_ fun _ _ ↦ rfl
  · intro domain action next hidle hkept hstep thread hthread
    obtain ⟨pc', hpcs, -⟩ := step_tableMove hstep
    rw [hpcs, Function.update_of_ne (ne_of_mem_of_not_mem hkept.1 hthread).symm, hidle thread hthread]
  · intro domain action hidle hkept
    cases action with
    | step thread =>
      intro hchanges scanner
      by_cases hscanner : scanner ∈ threads
      · exact hkept.2 hchanges scanner hscanner
      · rw [hidle scanner hscanner]
        rfl
    | exit thread => exact hkept.2
    | call thread op => trivial

/-! ## Executions -/

/-- An action, or what comes of an undefined statement. -/
abbrev Event (π : Type*) := Transition.Event (Domain π) (Action π) ThreadId

/-- `step`, where after an undefined statement anything may have happened. -/
abbrev execute : Domain π → Event π → Option (Domain π) := Transition.execute step Domain.undefined

/-- A statement that has a next state is not undefined. -/
theorem defined_of_step {thread : ThreadId} (hstep : step domain (.step thread) = some next) :
    domain.undefined thread = false := by
  rw [step] at hstep
  unfold Domain.undefined
  split
  · rename_i index count hpc
    rw [hpc, Domain.advance] at hstep
    cases Domain.scanMove_of_step hstep with
    | splice owner hvalid hlt howner halive =>
      rw [hvalid, howner, Option.any_some, halive, Bool.and_false]
      rfl
    | finish hvalid hge =>
      rw [hvalid, decide_eq_false (Nat.not_lt.mpr hge), Bool.false_and]
      rfl
  · rename_i hpc
    rw [hpc, Domain.advance] at hstep
    cases Domain.registerMove_of_step hstep with
    | update table htable =>
      unfold Domain.removeThread at htable
      split at htable
      · cases htable
      · rename_i halive
        exact Bool.eq_false_iff.mpr halive
  · rfl

omit [DecidableEq π] in
theorem Domain.Tabled.defined (h : domain.Tabled) (thread : ThreadId) : domain.undefined thread = false := by
  unfold Domain.undefined
  split
  · rename_i index count hpc
    rw [(h.spans thread index count hpc).1]
    cases howner : domain.allThreadData[index]? with
    | none =>
      rw [Option.any_none, Bool.and_false]
      rfl
    | some owner =>
      rw [Option.any_some, h.alive owner (List.mem_of_getElem? howner), Bool.and_false]
      rfl
  · rw [List.any_eq_false]
    intro owner howner
    rw [h.alive owner howner]
    exact Bool.false_ne_true
  · rfl

/-- While the table is kept, every execution is a run. -/
theorem exists_actions_of_kept {events : List (Event π)} {final : Domain π}
    (hkept : Meets execute (Event.onActions TableKept True) {} events) (hrun : run execute {} events = some final) :
    ∃ actions : List (Action π), events = actions.map .act :=
  exists_actions_of_execute (fun _ _ _ h hok hstep ↦ h.step hok hstep) (fun _ thread h ↦ h.defined thread) hkept
    tabled_empty hrun

end TinyReactor.Hazard
