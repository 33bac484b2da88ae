import TinyReactor.ThreadPool.Moves

/-!
# Growing and shrinking the pool

`remove_threads` only lowers the target; a worker that finds more workers active than the target takes
itself out with a compare-exchange on the number of active workers. The exchange compares that number and
not the target: between the worker's last look at the target and its exchange, `add_threads` can raise the
target, and the worker it spawns can bring the number back to the value that the exchange expects.
-/

namespace TinyReactor.ThreadPool

open Transition

/-- Spawned and not exited. -/
def WorkerPc.alive : WorkerPc → Bool
  | .exited => false
  | _ => true

/-- Spawned and not counted in `active_threads_` yet. -/
def WorkerPc.starting : WorkerPc → Bool
  | .start => true
  | _ => false

/-- The value that the compare-exchange of line 60 expects. -/
def WorkerPc.exchanges? : WorkerPc → Option ℤ
  | .exchange old => some old
  | _ => none

/-- Inside `add_threads` or `remove_threads`. -/
def ControlPc.resizing : ControlPc → Bool
  | .addTarget _ => true
  | .spawn _ => true
  | .removeLoad _ => true
  | .removeStore _ => true
  | _ => false

/-- Where a call of `add_threads`, `remove_threads` or `shutdown` begins. -/
def ControlPc.entry : ControlPc → Bool
  | .addTarget _ => true
  | .removeLoad _ => true
  | .setStop => true
  | _ => false

/-- The threads that the call has still to spawn for the target it has set. -/
def ControlPc.toSpawn : ControlPc → ℕ
  | .spawn left => left
  | _ => 0

namespace Pool

def aliveWorkers (pool : Pool) : ℕ := pool.workers.countP WorkerPc.alive

def toSpawn (pool : Pool) : ℕ := (pool.controls.map ControlPc.toSpawn).sum

end Pool

/-- `add_threads` and `remove_threads` are called one after another. -/
def CallsInTurn (pool : Pool) : Action → Prop
  | .callControl pc =>
      pc.entry = true ∧ (pc.resizing = true → ∀ other ∈ pool.controls, other.resizing = false)
  | _ => True

/-- A worker whose compare-exchange succeeds is still above the target. -/
def ExitsWhenSurplus (pool : Pool) : Action → Prop
  | .worker worker _ => ∀ pc ∈ pool.workers[worker]?, ∀ old ∈ pc.exchanges?,
      pool.activeThreads = old → pool.targetThreadCount < old
  | _ => True

instance (pool : Pool) : (action : Action) → Decidable (CallsInTurn pool action)
  | .callControl pc => inferInstanceAs (Decidable
      (pc.entry = true ∧ (pc.resizing = true → ∀ other ∈ pool.controls, other.resizing = false)))
  | .callEnqueue | .enqueue .. | .worker .. | .control .. | .callDestructor | .destructor => .isTrue trivial

instance (pool : Pool) : (action : Action) → Decidable (ExitsWhenSurplus pool action)
  | .worker worker _ => inferInstanceAs (Decidable (∀ pc ∈ pool.workers[worker]?, ∀ old ∈ pc.exchanges?,
      pool.activeThreads = old → pool.targetThreadCount < old))
  | .callEnqueue | .enqueue .. | .callControl .. | .control .. | .callDestructor | .destructor => .isTrue trivial

/-- The pool before `stop_` is set, with no more than one resize under way. -/
structure Manned (pool : Pool) : Prop where
  counted : pool.activeThreads + pool.workers.countP WorkerPc.starting = pool.aliveWorkers
  stays : ∀ pc ∈ pool.workers, pc ≠ .leave
  oneResize : pool.controls.countP ControlPc.resizing ≤ 1
  lowers : ∀ target, .removeStore target ∈ pool.controls → target ≤ pool.targetThreadCount
  manned : pool.targetThreadCount ≤ pool.aliveWorkers + pool.toSpawn

variable {sem : Semaphore} {pool next : Pool} {action : Action}

theorem manned_create (numThreads : ℕ) : Manned (Pool.create numThreads) where
  counted := by simp [Pool.create, Pool.aliveWorkers, List.countP_replicate, WorkerPc.starting, WorkerPc.alive]
  stays pc hpc := by
    rw [List.eq_of_mem_replicate hpc]
    rintro ⟨⟩
  oneResize := Nat.zero_le 1
  lowers _ h := by cases h
  manned := by simp [Pool.create, Pool.aliveWorkers, List.countP_replicate, WorkerPc.alive]

/-! ## Workers -/

/-- Before `stop_` is set a worker is counted when it starts and leaves only by its compare-exchange. -/
theorem workerStep_alive {worker : ℕ} {granted : Bool} {pc : WorkerPc} (hstop : pool.stop = false)
    (hstays : pc ≠ .leave) (h : pool.workerStep worker granted pc = some next) :
    pc.alive = true ∧ ∃ pc', next.workers = pool.workers.set worker pc' ∧ pc' ≠ .leave ∧ pc'.starting = false ∧
      ((next.activeThreads = pool.activeThreads + pc.starting.toNat ∧ pc'.alive = true) ∨
        (pc.exchanges? = some pool.activeThreads ∧ next.activeThreads = pool.activeThreads - 1 ∧ pc' = .exited)) := by
  have hmove {moved : Pool} {pc' : WorkerPc} (hstarting : pc.starting = false)
      (hactive : moved.activeThreads = pool.activeThreads) (halive : pc'.alive = true) :
      moved.activeThreads = pool.activeThreads + pc.starting.toNat ∧ pc'.alive = true := by
    rw [hactive, hstarting, Bool.toNat_false]
    exact ⟨(Int.add_zero _).symm, halive⟩
  cases workerMove_of_step h with
  | start => exact ⟨rfl, .loop, rfl, by rintro ⟨⟩, rfl, .inl ⟨rfl, rfl⟩⟩
  | stopped hstopped => cases hstop.symm.trans hstopped
  | exchanged => exact ⟨rfl, .exited, rfl, by rintro ⟨⟩, rfl, .inr ⟨rfl, rfl, rfl⟩⟩
  | leave => exact absurd rfl hstays
  | _ => exact ⟨rfl, _, rfl, by rintro ⟨⟩, rfl, .inl (hmove rfl rfl rfl)⟩

theorem workerStep_control_frame {worker : ℕ} {granted : Bool} {pc : WorkerPc}
    (h : pool.workerStep worker granted pc = some next) :
    next.stop = pool.stop ∧ next.targetThreadCount = pool.targetThreadCount ∧ next.controls = pool.controls := by
  cases workerMove_of_step h <;> exact ⟨rfl, rfl, rfl⟩

theorem Manned.workerStep {worker : ℕ} {granted : Bool} {pc : WorkerPc} (hpool : Manned pool)
    (hstop : pool.stop = false) (hpc : pool.workers[worker]? = some pc)
    (hsurplus : pc.exchanges? = some pool.activeThreads → pool.targetThreadCount < pool.activeThreads)
    (h : pool.workerStep worker granted pc = some next) : Manned next := by
  obtain ⟨-, htarget, hcontrols⟩ := workerStep_control_frame h
  obtain ⟨halive, pc', hworkers, hstays, hstarted, hcases⟩ :=
    workerStep_alive hstop (hpool.stays pc (List.mem_of_getElem? hpc)) h
  have hstarting := countP_set_of_getElem? WorkerPc.starting hpc pc'
  have hlive := countP_set_of_getElem? WorkerPc.alive hpc pc'
  have hstartingLe := toNat_le_countP WorkerPc.starting hpc
  have hliveLe := toNat_le_countP WorkerPc.alive hpc
  rw [halive, Bool.toNat_true] at hlive hliveLe
  rw [hstarted, Bool.toNat_false] at hstarting
  rw [← hworkers] at hstarting hlive
  obtain ⟨hcounted, hall, hone, hlowers, hmanned⟩ := hpool
  unfold Pool.aliveWorkers at hcounted hmanned
  have hstay : ∀ other ∈ next.workers, other ≠ .leave := by
    intro other hother
    rw [hworkers] at hother
    rcases List.mem_or_eq_of_mem_set hother with hold | rfl
    · exact hall other hold
    · exact hstays
  have hspawn : next.toSpawn = pool.toSpawn := by rw [Pool.toSpawn, hcontrols, Pool.toSpawn]
  refine ⟨?_, hstay, hcontrols ▸ hone, by rw [hcontrols, htarget]; exact hlowers, ?_⟩
  · unfold Pool.aliveWorkers
    rcases hcases with ⟨hactive, hstill⟩ | ⟨hexchange, hactive, rfl⟩
    · rw [hstill, Bool.toNat_true] at hlive
      omega
    · have hnot : pc.starting = false := by
        cases pc with
        | start => cases hexchange
        | _ => rfl
      rw [hnot, Bool.toNat_false] at hstarting
      change _ = _ + 0 - 1 at hlive
      omega
  · rw [htarget, hspawn]
    unfold Pool.aliveWorkers
    rcases hcases with ⟨-, hstill⟩ | ⟨hexchange, -, rfl⟩
    · rw [hstill, Bool.toNat_true] at hlive
      omega
    · have hlt := hsurplus hexchange
      change _ = _ + 0 - 1 at hlive
      omega

/-! ## Resizing -/

theorem controlStep_activeThreads {control : ℕ} {pc : ControlPc} (h : pool.controlStep control pc = some next) :
    next.activeThreads = pool.activeThreads := by
  rcases pc with _ | (_ | _) | _ | _ | _ | _ <;> cases h <;> rfl

/-- What a statement of a control call does to the target, the workers and what is still to be spawned. -/
theorem controlStep_resize {control : ℕ} {pc : ControlPc} (h : pool.controlStep control pc = some next) :
    ∃ pc', next.controls = pool.controls.set control pc' ∧ pc'.resizing.toNat ≤ pc.resizing.toNat ∧
      ((pc = .removeStore next.targetThreadCount ∧ next.workers = pool.workers ∧ pc' = .returned) ∨
        (pool.targetThreadCount ≤ next.targetThreadCount ∧
          next.targetThreadCount + pc.toSpawn + pool.workers.length =
            pool.targetThreadCount + pc'.toSpawn + next.workers.length ∧
          ∀ target, pc' = .removeStore target → target ≤ pool.targetThreadCount)) := by
  cases pc with
  | addTarget count =>
    cases h
    refine ⟨.spawn count, rfl, Nat.le_refl 1, .inr ⟨Nat.le_add_right _ _, rfl, ?_⟩⟩
    rintro _ ⟨⟩
  | spawn left =>
    cases left with
    | zero =>
      cases h
      refine ⟨.returned, rfl, Nat.zero_le 1, .inr ⟨Nat.le_refl _, rfl, ?_⟩⟩
      rintro _ ⟨⟩
    | succ left =>
      cases h
      refine ⟨.spawn left, rfl, Nat.le_refl 1, .inr ⟨Nat.le_refl _, ?_, ?_⟩⟩
      · simp [Pool.setControl, ControlPc.toSpawn]
        omega
      · rintro _ ⟨⟩
  | removeLoad count =>
    cases h
    refine ⟨_, rfl, Nat.le_refl 1, .inr ⟨Nat.le_refl _, rfl, ?_⟩⟩
    rintro target ⟨⟩
    split <;> omega
  | removeStore target =>
    cases h
    exact ⟨.returned, rfl, Nat.zero_le 1, .inl ⟨rfl, rfl, rfl⟩⟩
  | setStop =>
    cases h
    refine ⟨.returned, rfl, Nat.le_refl 0, .inr ⟨Nat.le_refl _, rfl, ?_⟩⟩
    rintro _ ⟨⟩
  | returned => cases h

/-- A spawned thread is alive and not counted yet. -/
theorem controlStep_counts {control : ℕ} {pc : ControlPc} (h : pool.controlStep control pc = some next) :
    next.aliveWorkers + pool.workers.length = pool.aliveWorkers + next.workers.length ∧
      next.workers.countP WorkerPc.starting + pool.workers.length =
        pool.workers.countP WorkerPc.starting + next.workers.length := by
  unfold Pool.aliveWorkers
  rcases controlStep_workers h with hsame | hspawned
  · rw [hsame]
    exact ⟨rfl, rfl⟩
  · rw [hspawned, countP_append_singleton, countP_append_singleton, List.length_append]
    exact ⟨Nat.add_right_comm _ _ _, Nat.add_right_comm _ _ _⟩

theorem Manned.controlStep {control : ℕ} {pc : ControlPc} (hpool : Manned pool)
    (hpc : pool.controls[control]? = some pc) (h : pool.controlStep control pc = some next) : Manned next := by
  have hactive := controlStep_activeThreads h
  obtain ⟨halive, hstarting⟩ := controlStep_counts h
  obtain ⟨pc', hcontrols, hresizing, hcases⟩ := controlStep_resize h
  have hresize := countP_set_of_getElem? ControlPc.resizing hpc pc'
  have hspawn := sum_map_set_of_getElem? ControlPc.toSpawn hpc pc'
  rw [← hcontrols] at hresize hspawn
  change next.toSpawn + pc.toSpawn = pool.toSpawn + pc'.toSpawn at hspawn
  obtain ⟨hcounted, hall, hone, hlowers, hmanned⟩ := hpool
  have hstay : ∀ other ∈ next.workers, other ≠ .leave := by
    rcases controlStep_workers h with hsame | hspawned
    · rw [hsame]
      exact hall
    · rw [hspawned]
      exact forall_mem_append_singleton hall (by rintro ⟨⟩)
  refine ⟨by omega, hstay, by omega, ?_, ?_⟩
  · intro target htarget
    rcases hcases with ⟨rfl, -, rfl⟩ | ⟨hraises, -, hnew⟩
    · -- the one resize under way has just ended
      have hnone : next.controls.countP ControlPc.resizing = 0 := by
        change _ = _ + 0 - 1 at hresize
        omega
      exact absurd rfl (List.countP_eq_zero.mp hnone _ htarget)
    · rw [hcontrols] at htarget
      rcases List.mem_or_eq_of_mem_set htarget with hold | hlast
      · exact Nat.le_trans (hlowers target hold) hraises
      · exact Nat.le_trans (hnew target hlast.symm) hraises
  · rcases hcases with ⟨rfl, hworkers, rfl⟩ | ⟨-, hbalance, -⟩
    · have hlower := hlowers _ (List.mem_of_getElem? hpc)
      rw [hworkers] at halive
      change next.toSpawn + 0 = pool.toSpawn + 0 at hspawn
      omega
    · omega

theorem Manned.callControl {pc : ControlPc} (hpool : Manned pool) (hentry : pc.entry = true)
    (hturn : pc.resizing = true → ∀ other ∈ pool.controls, other.resizing = false) :
    Manned { pool with controls := pool.controls ++ [pc] } := by
  obtain ⟨hcounted, hall, hone, hlowers, hmanned⟩ := hpool
  refine ⟨hcounted, hall, ?_, ?_, ?_⟩
  · rw [countP_append_singleton]
    cases hresizing : pc.resizing with
    | false => exact hone
    | true =>
      have hnone : pool.controls.countP ControlPc.resizing = 0 := by
        apply List.countP_eq_zero.mpr
        intro other hother
        rw [hturn hresizing other hother]
        exact Bool.false_ne_true
      rw [hnone]
      exact Nat.le_refl 1
  · intro target htarget
    rcases List.mem_append.mp htarget with hold | hnew
    · exact hlowers target hold
    · rw [← List.mem_singleton.mp hnew] at hentry
      cases hentry
  · have hnothing : pc.toSpawn = 0 := by
      cases pc with
      | spawn left => cases hentry
      | _ => rfl
    change pool.targetThreadCount ≤ pool.aliveWorkers + ((pool.controls ++ [pc]).map ControlPc.toSpawn).sum
    rw [List.map_append, List.sum_append, List.map_singleton, List.sum_singleton, hnothing, Nat.add_zero]
    exact hmanned

/-! ## Runs -/

/-- What a step leaves alone when it moves neither a worker nor a control call. -/
structure SameStaff (pool next : Pool) : Prop where
  workers : next.workers = pool.workers
  controls : next.controls = pool.controls
  activeThreads : next.activeThreads = pool.activeThreads
  targetThreadCount : next.targetThreadCount = pool.targetThreadCount

theorem Manned.of_sameStaff (hpool : Manned pool) (h : SameStaff pool next) : Manned next := by
  obtain ⟨hcounted, hall, hone, hlowers, hmanned⟩ := hpool
  unfold Pool.aliveWorkers at hcounted
  unfold Pool.aliveWorkers Pool.toSpawn at hmanned
  constructor
  · rw [h.activeThreads, h.workers, Pool.aliveWorkers, h.workers]
    exact hcounted
  · rw [h.workers]
    exact hall
  · rw [h.controls]
    exact hone
  · rw [h.controls, h.targetThreadCount]
    exact hlowers
  · rw [h.targetThreadCount, Pool.aliveWorkers, h.workers, Pool.toSpawn, h.controls]
    exact hmanned

theorem enqueueStep_sameStaff {call : TaskId} {accepted : Bool} {pc : EnqueuePc}
    (h : pool.enqueueStep sem call accepted pc = some next) : SameStaff pool next ∧ next.stop = pool.stop := by
  cases enqueueMove_of_step h <;> exact ⟨⟨rfl, rfl, rfl, rfl⟩, rfl⟩

theorem destructorStep_sameStaff {pc : DestructorPc} (h : pool.destructorStep sem pc = some next) :
    SameStaff pool next ∧ (next.stop = pool.stop ∨ next.stop = true) := by
  cases pc <;> simp only [Pool.destructorStep] at h <;> (try split at h) <;> cases h <;>
    first
    | exact ⟨⟨rfl, rfl, rfl, rfl⟩, .inl rfl⟩
    | exact ⟨⟨rfl, rfl, rfl, rfl⟩, .inr rfl⟩

/-- `stop_` is never reset. -/
theorem stop_of_step (h : step sem pool action = some next) (hnext : next.stop = false) : pool.stop = false := by
  obtain ⟨-, -, rfl⟩ | ⟨call, accepted, pc, -, -, h⟩ | ⟨worker, granted, pc, -, -, h⟩ | ⟨pc, -, rfl⟩ |
    ⟨control, pc, -, -, h⟩ | ⟨-, -, -, rfl⟩ | ⟨-, h⟩ := step_cases h
  · exact hnext
  · exact (enqueueStep_sameStaff h).2 ▸ hnext
  · exact (workerStep_control_frame h).1 ▸ hnext
  · exact hnext
  · rcases pc with _ | (_ | _) | _ | _ | _ | _ <;> cases h <;> first | exact hnext | cases hnext
  · exact hnext
  · rcases (destructorStep_sameStaff h).2 with hsame | hset
    · exact hsame ▸ hnext
    · rw [hset] at hnext
      cases hnext

theorem Manned.step (hpool : Manned pool) (hstop : pool.stop = false) (hturn : CallsInTurn pool action)
    (hsurplus : ExitsWhenSurplus pool action) (h : step sem pool action = some next) : Manned next := by
  obtain ⟨-, -, rfl⟩ | ⟨call, accepted, pc, -, -, h⟩ | ⟨worker, granted, pc, rfl, hpc, h⟩ | ⟨pc, rfl, rfl⟩ |
    ⟨control, pc, -, hpc, h⟩ | ⟨-, -, -, rfl⟩ | ⟨-, h⟩ := step_cases h
  · exact hpool.of_sameStaff ⟨rfl, rfl, rfl, rfl⟩
  · exact hpool.of_sameStaff (enqueueStep_sameStaff h).1
  · exact hpool.workerStep hstop hpc (fun hexchange ↦ hsurplus pc hpc _ hexchange rfl) h
  · exact hpool.callControl hturn.1 hturn.2
  · exact hpool.controlStep hpc h
  · exact hpool.of_sameStaff ⟨rfl, rfl, rfl, rfl⟩
  · exact hpool.of_sameStaff (destructorStep_sameStaff h).1

/-- Before `stop_` is set there are never fewer workers than the target asks for, in every run that
resizes the pool in turn and in which every worker whose compare-exchange succeeds is still above the
target. -/
theorem workers_meet_target (sem : Semaphore) (numThreads : ℕ) (actions : List Action) (final : Pool)
    (hrun : run (step sem) (Pool.create numThreads) actions = some final)
    (hturn : Meets (step sem) CallsInTurn (Pool.create numThreads) actions)
    (hsurplus : Meets (step sem) ExitsWhenSurplus (Pool.create numThreads) actions)
    (hstop : final.stop = false) : final.targetThreadCount ≤ final.aliveWorkers + final.toSpawn := by
  have hmanned : final.stop = false → Manned final := by
    refine (hturn.and hsurplus).invariant (I := fun pool ↦ pool.stop = false → Manned pool) ?_
      (fun _ ↦ manned_create numThreads) hrun
    intro pool action next hpool hok hstep hnext
    have hbefore := stop_of_step hstep hnext
    exact (hpool hbefore).step hbefore hok.1 hok.2 hstep
  exact (hmanned hstop).manned

/-- Three workers, two of which stand before their compare-exchange after `remove_threads(1)`. -/
def twoBeforeExchange : List Action :=
  [.worker 0 false, .worker 1 false, .worker 2 false, .callControl (.removeLoad 1), .control 0, .control 0] ++
    List.replicate 6 (.worker 0 false) ++ List.replicate 6 (.worker 1 false)

/-- One of them exits and the other finds the number changed. -/
theorem workers_meet_target_shrunk :
    ∃ final, run (step .uncapped) (Pool.create 3) (twoBeforeExchange ++ [.worker 0 false, .worker 1 false]) =
        some final ∧ final.targetThreadCount = 2 ∧ final.aliveWorkers = 2 ∧
      final.targetThreadCount ≤ final.aliveWorkers + final.toSpawn := by
  have hrun : run (step .uncapped) (Pool.create 3) (twoBeforeExchange ++ [.worker 0 false, .worker 1 false]) =
      some _ := rfl
  exact ⟨_, hrun, rfl, rfl,
    workers_meet_target .uncapped 3 _ _ hrun (by decide +kernel) (by decide +kernel) rfl⟩

/-- One of them exits, `add_threads(1)` raises the target to three again and its thread starts: the number
is what the other one expects, and it exits too. -/
theorem workers_below_target :
    ∃ final, run (step .uncapped) (Pool.create 3) (twoBeforeExchange ++ [.worker 0 false, .callControl (.addTarget 1),
        .control 1, .control 1, .control 1, .worker 3 false, .worker 1 false]) = some final ∧
      Meets (step .uncapped) CallsInTurn (Pool.create 3) (twoBeforeExchange ++ [.worker 0 false,
        .callControl (.addTarget 1), .control 1, .control 1, .control 1, .worker 3 false, .worker 1 false]) ∧
      final.stop = false ∧ final.aliveWorkers + final.toSpawn < final.targetThreadCount := by
  exact ⟨_, rfl, by decide +kernel, rfl, by decide⟩

end TinyReactor.ThreadPool
