import Mathlib.Data.List.Permutation
import TinyReactor.ThreadPool.Resize

/-!
# Resize requests

`add_threads` changes the target with one atomic addition, `remove_threads` with a load and a later store. A
store that finds the target as it was loaded acts as if load, subtraction and store had been one step, and then
the calls can be put in the order in which they took effect. A store that comes after another call has changed
the target writes over that change.
-/

namespace TinyReactor.ThreadPool

open Transition

/-- The call has done all that it does to the target. -/
def ControlPc.effective : ControlPc → Bool
  | .spawn _ | .returned => true
  | _ => false

/-- `remove_threads` is between its load and its store. -/
def ControlPc.stores : ControlPc → Bool
  | .removeStore _ => true
  | _ => false

/-- How many threads the call is to remove. -/
def ControlPc.removed : ControlPc → ℕ
  | .removeLoad count => count
  | _ => 0

/-- What a call makes of the target when nothing else runs. -/
def ControlPc.resize (target : ℕ) : ControlPc → ℕ
  | .addTarget count => target + count
  | .removeLoad count => target - count
  | _ => target

/-- The call that the action begins, if it begins one. -/
def Action.request? : Action → Option ControlPc
  | .callControl pc => some pc
  | _ => none

/-- The pool with its history: the calls of `add_threads`, `remove_threads` and `shutdown` in the order in which
they were made, and the target that each `remove_threads` has loaded. No step reads it. -/
structure Resizing where
  pool : Pool
  requests : List ControlPc := []
  loaded : ℕ → ℕ := fun _ ↦ 0

namespace Resizing

/-- The target that the action loads for a call of `remove_threads`. -/
def load (state : Resizing) : Action → ℕ → ℕ
  | .control control =>
      match state.pool.controls[control]? with
      | some (.removeLoad _) => Function.update state.loaded control state.pool.targetThreadCount
      | _ => state.loaded
  | _ => state.loaded

/-- A step of the pool. -/
def step (sem : Semaphore) (state : Resizing) (action : Action) : Option Resizing :=
  (ThreadPool.step sem state.pool action).map fun pool ↦
    { pool, requests := state.requests ++ action.request?.toList, loaded := state.load action }

/-- Calls begin where the functions begin. -/
def BeginsCalls (_ : Resizing) : Action → Prop
  | .callControl pc => pc.entry = true
  | _ => True

/-- A `remove_threads` that stores finds the target that it has loaded, or both are too small to matter. -/
def StoresFresh (state : Resizing) : Action → Prop
  | .control control => ∀ pc ∈ state.pool.controls[control]?, pc.stores = true →
      ∀ request ∈ state.requests[control]?, state.pool.targetThreadCount = state.loaded control ∨
        (state.pool.targetThreadCount ≤ request.removed ∧ state.loaded control ≤ request.removed)
  | _ => True

instance (state : Resizing) : (action : Action) → Decidable (BeginsCalls state action)
  | .callControl pc => inferInstanceAs (Decidable (pc.entry = true))
  | .callEnqueue | .enqueue .. | .worker .. | .control .. | .callDestructor | .destructor => .isTrue trivial

instance (state : Resizing) : (action : Action) → Decidable (StoresFresh state action)
  | .control control => inferInstanceAs (Decidable (∀ pc ∈ state.pool.controls[control]?, pc.stores = true →
      ∀ request ∈ state.requests[control]?, state.pool.targetThreadCount = state.loaded control ∨
        (state.pool.targetThreadCount ≤ request.removed ∧ state.loaded control ≤ request.removed)))
  | .callEnqueue | .enqueue .. | .worker .. | .callControl .. | .callDestructor | .destructor => .isTrue trivial

end Resizing

/-! ## Calls that have not taken effect -/

/-- The calls whose effect on the target is still to come. -/
def pendingRequests (requests controls : List ControlPc) : List ControlPc :=
  ((requests.zip controls).filter fun entry ↦ !entry.2.effective).map Prod.fst

/-- The program point of a call fits the call. -/
def ControlPc.Fits : ControlPc → ControlPc → ℕ → Prop
  | .addTarget count, request, _ => request = .addTarget count
  | .removeLoad count, request, _ => request = .removeLoad count
  | .removeStore target, request, loaded => ∃ count, request = .removeLoad count ∧ target = loaded - count
  | .setStop, request, _ => request = .setStop
  | .spawn _, _, _ | .returned, _, _ => True

theorem ControlPc.fits_self {pc : ControlPc} (h : pc.entry = true) (loaded : ℕ) : pc.Fits pc loaded := by
  cases pc with
  | addTarget | removeLoad | setStop => exact rfl
  | _ => cases h

theorem pendingRequests_append {requests controls : List ControlPc} (hlength : requests.length = controls.length)
    {pc : ControlPc} (hpc : pc.effective = false) :
    pendingRequests (requests ++ [pc]) (controls ++ [pc]) = pendingRequests requests controls ++ [pc] := by
  simp [pendingRequests, List.zip_append hlength, hpc]

theorem pendingRequests_set_same {requests controls : List ControlPc} {control : ℕ} {pc pc' : ControlPc}
    (hpc : controls[control]? = some pc) (hsame : pc'.effective = pc.effective) :
    pendingRequests requests (controls.set control pc') = pendingRequests requests controls := by
  induction controls generalizing requests control with
  | nil => rfl
  | cons first rest ih =>
    cases requests with
    | nil => rfl
    | cons request requests =>
      cases control with
      | zero =>
        obtain rfl : first = pc := by simpa using hpc
        simp only [pendingRequests, List.set_cons_zero, List.zip_cons_cons, List.filter_cons, hsame]
        split <;> rfl
      | succ control =>
        have hrest := @ih requests control (by simpa using hpc)
        unfold pendingRequests at hrest
        simp only [pendingRequests, List.set_cons_succ, List.zip_cons_cons, List.filter_cons]
        split <;> simp [hrest]

/-- A call that takes effect is no longer pending. -/
theorem pendingRequests_set_effective {requests controls : List ControlPc} {control : ℕ} {pc pc' request : ControlPc}
    (hrequest : requests[control]? = some request) (hpc : controls[control]? = some pc)
    (hbefore : pc.effective = false) (hafter : pc'.effective = true) :
    (pendingRequests requests controls).Perm (request :: pendingRequests requests (controls.set control pc')) := by
  induction controls generalizing requests control with
  | nil => cases hpc
  | cons first rest ih =>
    cases requests with
    | nil => cases hrequest
    | cons head requests =>
      cases control with
      | zero =>
        obtain rfl : first = pc := by simpa using hpc
        obtain rfl : head = request := by simpa using hrequest
        simp [pendingRequests, hbefore, hafter]
      | succ control =>
        have hrest := @ih requests control (by simpa using hrequest) (by simpa using hpc)
        unfold pendingRequests at hrest
        simp only [pendingRequests, List.set_cons_succ, List.zip_cons_cons, List.filter_cons]
        split
        · exact (hrest.cons head).trans (.swap request head _)
        · exact hrest

theorem pendingRequests_of_effective {requests controls : List ControlPc}
    (h : ∀ pc ∈ controls, pc.effective = true) : pendingRequests requests controls = [] := by
  simp only [pendingRequests, List.map_eq_nil_iff, List.filter_eq_nil_iff]
  intro entry hentry
  have := h entry.2 (List.of_mem_zip hentry).2
  simp [this]

/-! ## The order in which calls take effect -/

/-- The target is what the calls that have taken effect make of the initial one, one after another. -/
structure Resizing.Tallied (initial : ℕ) (state : Resizing) : Prop where
  length : state.requests.length = state.pool.controls.length
  fits : ∀ (control : ℕ) pc request, state.pool.controls[control]? = some pc →
    state.requests[control]? = some request → pc.Fits request (state.loaded control)
  applied : ∃ applied, (applied ++ pendingRequests state.requests state.pool.controls).Perm state.requests ∧
    state.pool.targetThreadCount = applied.foldl ControlPc.resize initial

namespace Resizing

variable {sem : Semaphore} {initial : ℕ} {state next : Resizing} {action : Action}

theorem tallied_create (numThreads : ℕ) : Tallied numThreads ⟨Pool.create numThreads, [], fun _ ↦ 0⟩ where
  length := rfl
  fits control pc request h := by cases h
  applied := ⟨[], List.Perm.refl _, rfl⟩

theorem Tallied.of_same (h : Tallied initial state) {pool : Pool} (hcontrols : pool.controls = state.pool.controls)
    (htarget : pool.targetThreadCount = state.pool.targetThreadCount) : Tallied initial { state with pool } where
  length := hcontrols ▸ h.length
  fits := hcontrols ▸ h.fits
  applied := by
    rw [hcontrols, htarget]
    exact h.applied

/-- Moving one call keeps all the others fitting. -/
theorem Tallied.fits_set (h : Tallied initial state) {control : ℕ} {pc pc' : ControlPc} {loaded : ℕ → ℕ}
    (hpc : state.pool.controls[control]? = some pc)
    (hloaded : ∀ other, control ≠ other → loaded other = state.loaded other)
    (hfits : ∀ request, state.requests[control]? = some request → pc'.Fits request (loaded control)) :
    ∀ (other : ℕ) moved request, (state.pool.controls.set control pc')[other]? = some moved →
      state.requests[other]? = some request → moved.Fits request (loaded other) := by
  intro other moved request hmoved hrequest
  by_cases hne : control = other
  · subst hne
    rw [List.getElem?_set_self (lt_length_of_getElem? hpc)] at hmoved
    cases hmoved
    exact hfits request hrequest
  · rw [List.getElem?_set_ne hne] at hmoved
    rw [hloaded other hne]
    exact h.fits other moved request hmoved hrequest

/-- A statement that leaves the target alone and moves its call from one side of its effect to the same side. -/
theorem Tallied.move (h : Tallied initial state) {control : ℕ} {pc pc' : ControlPc} {pool : Pool} {loaded : ℕ → ℕ}
    (hpc : state.pool.controls[control]? = some pc) (hcontrols : pool.controls = state.pool.controls.set control pc')
    (htarget : pool.targetThreadCount = state.pool.targetThreadCount) (hsame : pc'.effective = pc.effective)
    (hloaded : ∀ other, control ≠ other → loaded other = state.loaded other)
    (hfits : ∀ request, state.requests[control]? = some request → pc'.Fits request (loaded control)) :
    Tallied initial { state with pool, loaded } where
  length := by
    rw [hcontrols, List.length_set]
    exact h.length
  fits := hcontrols ▸ h.fits_set hpc hloaded hfits
  applied := by
    rw [hcontrols, pendingRequests_set_same hpc hsame, htarget]
    exact h.applied

/-- The statement with which a call takes effect. -/
theorem Tallied.effect (h : Tallied initial state) {control : ℕ} {pc pc' request : ControlPc} {pool : Pool}
    (hpc : state.pool.controls[control]? = some pc) (hrequest : state.requests[control]? = some request)
    (hcontrols : pool.controls = state.pool.controls.set control pc') (hbefore : pc.effective = false)
    (hafter : pc'.effective = true) (hfits : ∀ request loaded, pc'.Fits request loaded)
    (htarget : pool.targetThreadCount = request.resize state.pool.targetThreadCount) :
    Tallied initial { state with pool } where
  length := by
    rw [hcontrols, List.length_set]
    exact h.length
  fits := hcontrols ▸ h.fits_set hpc (fun _ _ ↦ rfl) fun request _ ↦ hfits request _
  applied := by
    obtain ⟨applied, hperm, hfold⟩ := h.applied
    refine ⟨applied ++ [request], ?_, ?_⟩
    · rw [hcontrols, List.append_assoc, List.singleton_append]
      exact ((pendingRequests_set_effective hrequest hpc hbefore hafter).append_left applied).symm.trans hperm
    · rw [htarget, hfold, List.foldl_append, List.foldl_cons, List.foldl_nil]

theorem Tallied.request (h : Tallied initial state) {control : ℕ} {pc : ControlPc}
    (hpc : state.pool.controls[control]? = some pc) :
    ∃ request, state.requests[control]? = some request ∧ pc.Fits request (state.loaded control) := by
  have hlt : control < state.requests.length := h.length ▸ lt_length_of_getElem? hpc
  exact ⟨_, List.getElem?_eq_getElem hlt, h.fits control pc _ hpc (List.getElem?_eq_getElem hlt)⟩

/-- A statement of a control call. Stores that find the target as it was loaded take effect as a whole. -/
theorem Tallied.controlStep (h : Tallied initial state) {control : ℕ} {pc : ControlPc} {pool : Pool}
    (hpc : state.pool.controls[control]? = some pc) (hfresh : StoresFresh state (.control control))
    (hstep : state.pool.controlStep control pc = some pool) :
    Tallied initial { state with pool, loaded := state.load (.control control) } := by
  obtain ⟨request, hrequest, hfits⟩ := h.request hpc
  cases pc with
  | addTarget count =>
    cases hstep
    cases hfits
    simp only [load, hpc]
    exact h.effect hpc hrequest rfl rfl rfl (fun _ _ ↦ trivial) rfl
  | spawn left =>
    simp only [load, hpc]
    cases left with
    | zero =>
      cases hstep
      exact h.move hpc rfl rfl rfl (fun _ _ ↦ rfl) fun _ _ ↦ trivial
    | succ left =>
      cases hstep
      exact h.move hpc rfl rfl rfl (fun _ _ ↦ rfl) fun _ _ ↦ trivial
  | removeLoad count =>
    cases hstep
    simp only [load, hpc]
    refine h.move hpc rfl rfl rfl (fun other hne ↦ Function.update_of_ne (Ne.symm hne) _ _) ?_
    intro request' hrequest'
    cases hrequest.symm.trans hrequest'
    refine ⟨count, hfits, ?_⟩
    rw [Function.update_self]
    split <;> omega
  | removeStore target =>
    obtain ⟨count, rfl, rfl⟩ := hfits
    cases hstep
    simp only [load, hpc]
    refine h.effect hpc hrequest rfl rfl rfl (fun _ _ ↦ trivial) ?_
    change state.loaded control - count = state.pool.targetThreadCount - count
    rcases hfresh _ hpc rfl _ hrequest with heq | ⟨htarget, hloaded⟩
    · rw [heq]
    · simp only [ControlPc.removed] at htarget hloaded
      omega
  | setStop =>
    cases hstep
    cases hfits
    simp only [load, hpc]
    exact h.effect hpc hrequest rfl rfl rfl (fun _ _ ↦ trivial) rfl
  | returned => cases hstep

theorem Tallied.callControl (h : Tallied initial state) {pc : ControlPc} (hentry : pc.entry = true) :
    Tallied initial
      { state with
        pool := { state.pool with controls := state.pool.controls ++ [pc] }
        requests := state.requests ++ [pc] } where
  length := by simp [h.length]
  fits control moved request hmoved hrequest := by
    rcases of_getElem?_append_singleton hmoved with hold | ⟨rfl, rfl⟩
    · rw [List.getElem?_append_left (h.length ▸ lt_length_of_getElem? hold)] at hrequest
      exact h.fits control moved request hold hrequest
    · rw [← h.length, List.getElem?_concat_length] at hrequest
      cases hrequest
      exact ControlPc.fits_self hentry _
  applied := by
    obtain ⟨applied, hperm, hfold⟩ := h.applied
    have hpending : pc.effective = false := by
      cases pc with
      | addTarget | removeLoad | setStop => rfl
      | _ => cases hentry
    refine ⟨applied, ?_, hfold⟩
    rw [pendingRequests_append h.length hpending, ← List.append_assoc]
    exact hperm.append_right [pc]

theorem Tallied.step (h : Tallied initial state) (hbegins : BeginsCalls state action)
    (hfresh : StoresFresh state action) (hstep : step sem state action = some next) : Tallied initial next := by
  have hidle {pool : Pool} (hcontrols : pool.controls = state.pool.controls)
      (htarget : pool.targetThreadCount = state.pool.targetThreadCount) :
      Tallied initial { pool, requests := state.requests ++ [], loaded := state.loaded } := by
    rw [List.append_nil]
    exact h.of_same hcontrols htarget
  obtain ⟨pool, hpool, rfl⟩ := Option.map_eq_some_iff.mp hstep
  obtain ⟨rfl, -, rfl⟩ | ⟨call, accepted, pc, rfl, -, hmove⟩ | ⟨worker, granted, pc, rfl, -, hmove⟩ | ⟨pc, rfl, rfl⟩ |
    ⟨control, pc, rfl, hpc, hmove⟩ | ⟨rfl, -, -, rfl⟩ | ⟨rfl, hmove⟩ := step_cases hpool
  · exact hidle rfl rfl
  · exact hidle (enqueueStep_sameStaff hmove).1.controls (enqueueStep_sameStaff hmove).1.targetThreadCount
  · exact hidle (workerStep_control_frame hmove).2.2 (workerStep_control_frame hmove).2.1
  · exact h.callControl hbegins
  · simpa [Action.request?] using h.controlStep hpc hfresh hmove
  · exact hidle rfl rfl
  · exact hidle (destructorStep_sameStaff hmove).1.controls (destructorStep_sameStaff hmove).1.targetThreadCount

end Resizing

/-- The pool as its constructor leaves it, before any call. -/
def Resizing.create (numThreads : ℕ) : Resizing := { pool := Pool.create numThreads }

/-- When all calls have returned, the target is what some order of the calls makes of the initial one, in every
run in which each `remove_threads` that stores finds the target that it has loaded. -/
theorem no_request_lost (sem : Semaphore) (numThreads : ℕ) (actions : List Action) (final : Resizing)
    (hrun : run (Resizing.step sem) (Resizing.create numThreads) actions = some final)
    (hbegins : Meets (Resizing.step sem) Resizing.BeginsCalls (Resizing.create numThreads) actions)
    (hfresh : Meets (Resizing.step sem) Resizing.StoresFresh (Resizing.create numThreads) actions)
    (hreturned : ∀ pc ∈ final.pool.controls, pc = .returned) :
    ∃ order : List ControlPc, order.Perm final.requests ∧
      final.pool.targetThreadCount = order.foldl ControlPc.resize numThreads := by
  have htallied : final.Tallied numThreads :=
    (hbegins.and hfresh).invariant (fun _ _ _ h hok hstep ↦ h.step hok.1 hok.2 hstep)
      (Resizing.tallied_create numThreads) hrun
  obtain ⟨applied, hperm, hfold⟩ := htallied.applied
  refine ⟨applied, ?_, hfold⟩
  rwa [pendingRequests_of_effective, List.append_nil] at hperm
  intro pc hpc
  rw [hreturned pc hpc]
  rfl

/-- `remove_threads(5)` and `remove_threads(4)` overlap on a pool of three: each takes the target to zero. -/
def overlappingRemovals : List Action :=
  [.callControl (.removeLoad 5), .callControl (.removeLoad 4), .control 0, .control 1, .control 0, .control 1]

theorem no_request_lost_overlapping : ∃ final,
    run (Resizing.step .uncapped) (Resizing.create 3) overlappingRemovals = some final ∧
      final.requests = [.removeLoad 5, .removeLoad 4] ∧
      ∃ order : List ControlPc, order.Perm final.requests ∧
        final.pool.targetThreadCount = order.foldl ControlPc.resize 3 := by
  have hends : (run (Resizing.step .uncapped) (Resizing.create 3) overlappingRemovals).map (fun final ↦
      (final.requests, final.pool.controls)) = some ([.removeLoad 5, .removeLoad 4], [.returned, .returned]) := by
    decide +kernel
  obtain ⟨final, hrun, hshape⟩ := Option.map_eq_some_iff.mp hends
  obtain ⟨hrequests, hcontrols⟩ := Prod.mk.inj hshape
  refine ⟨final, hrun, hrequests, ?_⟩
  apply no_request_lost .uncapped 3 overlappingRemovals final hrun (by decide +kernel) (by decide +kernel)
  rw [hcontrols]
  decide

/-- `remove_threads(1)` has loaded the target when `add_threads(1)` raises it. -/
def additionOverwritten : List Action :=
  [.callControl (.removeLoad 1), .callControl (.addTarget 1), .control 0, .control 1, .control 1, .control 1,
    .control 0]

/-- The store takes the target to two, and both orders of the two calls give three. -/
theorem request_lost : ¬ ∀ (sem : Semaphore) (numThreads : ℕ) (actions : List Action) (final : Resizing),
    run (Resizing.step sem) (Resizing.create numThreads) actions = some final →
    Meets (Resizing.step sem) Resizing.BeginsCalls (Resizing.create numThreads) actions →
    (∀ pc ∈ final.pool.controls, pc = .returned) →
    ∃ order : List ControlPc, order.Perm final.requests ∧
      final.pool.targetThreadCount = order.foldl ControlPc.resize numThreads := by
  intro h
  have hends : (run (Resizing.step .uncapped) (Resizing.create 3) additionOverwritten).map (fun final ↦
      (final.requests, final.pool.controls, final.pool.targetThreadCount)) =
        some ([.removeLoad 1, .addTarget 1], [.returned, .returned], 2) := by
    decide +kernel
  obtain ⟨final, hrun, hshape⟩ := Option.map_eq_some_iff.mp hends
  simp only [Prod.mk.injEq] at hshape
  obtain ⟨hrequests, hcontrols, htarget⟩ := hshape
  obtain ⟨order, hperm, hfold⟩ := h .uncapped 3 additionOverwritten final hrun (by decide +kernel) (by
    rw [hcontrols]
    decide)
  rw [htarget] at hfold
  rw [hrequests, ← List.mem_permutations'] at hperm
  have hall : ∀ order ∈ List.permutations' [ControlPc.removeLoad 1, .addTarget 1],
      2 ≠ order.foldl ControlPc.resize 3 := by
    decide +kernel
  exact hall order hperm hfold

end TinyReactor.ThreadPool
