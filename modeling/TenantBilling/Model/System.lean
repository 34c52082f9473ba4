import TenantBilling.Base.Runs
import TenantBilling.Model.Routes

/-!
# The system

The routes together: any number of requests of any number of businesses, and any
number of polls of the webhook worker, each a program whose statements are
interleaved with those of all others.

A `TenantBilling.System` is the shared `TenantBilling.World` next to what is left of
each program. An event lets a request or a poll arrive, executes the next statement
of one program (if it need not wait), lets the deadlock detector abort a transaction
on a cycle of waits, or kills a program: its connection is gone and its transaction
with it. Nothing is assumed about the order of events.
-/

namespace TenantBilling

open Base Orm

/-- What a program runs: an authenticated request, or a poll of the worker. -/
inductive Job where
  | request (business : Business) (req : Request)
  | poll

/-- A request or a poll, what is left of its program, and whether its process still
runs. -/
structure Proc where
  job : Job
  prog : ServerProg (Except Exc Result)
  alive : Bool

/-- The shared state and the programs; a program's place is the number of its session. -/
structure System where
  world : World
  procs : List Proc

/-- What can happen next. -/
inductive Event where
  | start (job : Job)
  | exec (p : Pid) (env : Env)
  /-- The deadlock detector finds the cycle of waits that starts at the session, and
  aborts the session's transaction. -/
  | abort (p : Pid) (cycle : List Pid)
  | kill (p : Pid)

variable (crypto : Crypto)

/-- The whole program of a job. -/
def Job.program : Job → ServerProg (Except Exc Result)
  | request business req => getDb (route crypto business req)
  | poll => getDb do
    TenantBilling.poll crypto
    pure .done

namespace System

/-- Nothing has happened yet. -/
def init : System := ⟨World.init, []⟩

/-- The sessions that a session waits for with its next statement. -/
def blockers (s : System) (p : Pid) : List Pid :=
  match s.procs[p]? with
  | some ⟨_, .op st _, true⟩ => s.world.blockers p st
  | _ => []

/-- One session waits for another. -/
def Waits (s : System) (p q : Pid) : Prop := q ∈ s.blockers p

instance (s : System) : DecidableRel s.Waits := fun p q =>
  inferInstanceAs (Decidable (q ∈ s.blockers p))

/-- **One step of the system.** -/
def step (s : System) : Event → Option System
  | .start job => some ⟨s.world, s.procs ++ [⟨job, job.program crypto, true⟩]⟩
  | .exec p env =>
    match s.procs[p]? with
    | some ⟨job, .op st k, true⟩ =>
      (s.world.exec p env st).map fun x => ⟨x.2, s.procs.set p ⟨job, k x.1, true⟩⟩
    | _ => none
  | .abort p cycle =>
    if IsCycle s.Waits (p :: cycle) then
      match s.procs[p]? with
      | some ⟨job, .op st k, true⟩ =>
        (s.world.fail p .deadlockDetected st).map fun x => ⟨x.2, s.procs.set p ⟨job, k x.1, true⟩⟩
      | _ => none
    else none
  | .kill p =>
    match s.procs[p]? with
    | some ⟨job, prog, true⟩ => some ⟨s.world.release p, s.procs.set p ⟨job, prog, false⟩⟩
    | _ => none

/-- The states the service can get into. -/
def Reachable (s : System) : Prop := Reaches (step crypto) Always init s

end System

end TenantBilling
