import TinyReactor.ApiServer.Model

/-!
# Inversion of the server's steps

The outcomes of a return of `Next`, of `Proceed` and of the statements of `Shutdown`, one constructor each.
-/

namespace TinyReactor.ApiServer

open Wire

section

variable (server : AsyncServer)

/-- What an action of the environment does, when it is possible. -/
inductive AsyncServer.Move : Action → AsyncServer → Prop
  | deliver {driver : ℕ} {op : Op} {ok : Bool} {request : PbTask} (draining : Bool)
      (hdriver : server.drivers[driver]? = some (.next draining))
      (hdeliver : deliverable server driver op ok = true) : Move (.deliver driver op ok request)
      { server with
        drivers := server.drivers.set driver (.proceed draining op.tag ok)
        outstanding := server.outstanding.erase op
        contexts := server.contexts.modify op.tag (Option.map (receive op.kind ok request)) }
  | proceed {driver : ℕ} (draining : Bool) (tag : ContextId) (ok : Bool) (context : CallContext)
      (hdriver : server.drivers[driver]? = some (.proceed draining tag ok))
      (hlive : server.contexts[tag]? = some (some context)) :
      Move (.proceed driver) ((proceed server tag context ok).setDriver driver (.next draining))
  | drain {driver : ℕ} (hdriver : server.drivers[driver]? = some (.next false))
      (hclosed : server.queuesStopped[driver]?.getD false = true)
      (hempty : server.outstanding.all (fun op ↦ op.cq != driver) = true) :
      Move (.closed driver) (server.setDriver driver (.next true))
  | finish {driver : ℕ} (hdriver : server.drivers[driver]? = some (.next true))
      (hclosed : server.queuesStopped[driver]?.getD false = true)
      (hempty : server.outstanding.all (fun op ↦ op.cq != driver) = true) :
      Move (.closed driver) (server.setDriver driver .returned)
  | callShutdown (hshutdown : server.shutdown = .notCalled) : Move .callShutdown { server with shutdown := .setFlag }
  | setFlag (hshutdown : server.shutdown = .setFlag) :
      Move .shutdown { server with shutdownFlag := true, shutdown := .stopServer }
  | stopServer (hshutdown : server.shutdown = .stopServer) :
      Move .shutdown { server with serverStopped := true, shutdown := .stopQueue 0 }
  | stopQueue (cq : ℕ) (hshutdown : server.shutdown = .stopQueue cq) (hlt : cq < server.queuesStopped.length) :
      Move .shutdown
        { server with queuesStopped := server.queuesStopped.set cq true, shutdown := .stopQueue (cq + 1) }
  | join (cq : ℕ) (hshutdown : server.shutdown = .stopQueue cq) (hge : server.queuesStopped.length ≤ cq) :
      Move .shutdown { server with shutdown := .join }

end

theorem move_of_step {server next : AsyncServer} {action : Action} (h : step server action = some next) :
    server.Move action next := by
  cases action with
  | deliver driver op ok request =>
    simp only [step] at h
    split at h
    · rename_i draining hdriver
      rw [Option.ite_none_right_eq_some, Option.some.injEq] at h
      obtain ⟨hdeliver, rfl⟩ := h
      exact .deliver draining hdriver hdeliver
    · cases h
  | proceed driver =>
    simp only [step] at h
    split at h
    · rename_i draining tag ok hdriver
      split at h
      · rename_i context hlive
        cases h
        exact .proceed draining tag ok context hdriver hlive
      · cases h
    · cases h
  | closed driver =>
    simp only [step] at h
    split at h
    · rename_i draining hdriver
      rw [Option.ite_none_right_eq_some, Option.some.injEq, Bool.and_eq_true] at h
      obtain ⟨⟨hclosed, hempty⟩, rfl⟩ := h
      cases draining with
      | false => exact .drain hdriver hclosed hempty
      | true => exact .finish hdriver hclosed hempty
    · cases h
  | callShutdown =>
    simp only [step, Option.ite_none_right_eq_some, Option.some.injEq] at h
    obtain ⟨hshutdown, rfl⟩ := h
    exact .callShutdown hshutdown
  | shutdown =>
    simp only [step] at h
    split at h
    · rename_i hshutdown
      cases h
      exact .setFlag hshutdown
    · rename_i hshutdown
      cases h
      exact .stopServer hshutdown
    · rename_i cq hshutdown
      split at h
      · rename_i hlt
        cases h
        exact .stopQueue cq hshutdown hlt
      · rename_i hge
        cases h
        exact .join cq hshutdown (Nat.le_of_not_lt hge)
    · cases h
    · cases h

end TinyReactor.ApiServer
