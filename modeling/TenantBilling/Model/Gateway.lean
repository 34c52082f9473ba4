import TenantBilling.Model.Authentication
import TenantBilling.Model.System

/-!
# The gateway

The system behind its authentication. A request arrives with the credentials that are in
its header, runs the dependency, and is started as a request of the business that the
dependency has returned; nothing else starts one. All of it is interleaved: with the
other requests, with the polls of the worker, and with the operator, who puts another
directory in place between any two statements.

The directories of the past are kept, so that it can be said which were in effect since
a request arrived (`TenantBilling.Gateway.since`). A business is never deleted: its rows
would go with it, and the tables of the system have no deletion.
-/

namespace TenantBilling

open Base

/-- A request that has arrived: what it carries, how many directories had been replaced by
then, what is left of its dependency, and the session it was given. -/
structure Arrival where
  credentials : Option Credentials
  req : Request
  age : ℕ
  prog : AuthProg (Except HttpException Business)
  session : Option Pid

/-- The directory and those it has replaced, the requests that have arrived, and the system
behind them. -/
structure Gateway where
  past : List Directory
  directory : Directory
  arrivals : List Arrival
  system : System

/-- What can happen next. -/
inductive GatewayEvent where
  | arrive (credentials : Option Credentials) (req : Request)
  /-- The next select of the dependency is answered. -/
  | look (n : ℕ)
  /-- The dependency has returned a business, and the route begins. -/
  | enter (n : ℕ)
  /-- The operator commits. -/
  | administer (d : Directory)
  /-- An event of the system: a poll begins, or a program goes on. -/
  | inner (e : Event)

/-- No business is gone. -/
def Directory.Keeps (d d' : Directory) : Prop :=
  ∀ i ∈ d.businesses.rows.map Business.id, i ∈ d'.businesses.rows.map Business.id

instance (d d' : Directory) : Decidable (d.Keeps d') :=
  List.decidableBAll (fun i => i ∈ d'.businesses.rows.map Business.id)
    (d.businesses.rows.map Business.id)

/-- The event starts a request. -/
def Event.StartsRequest : Event → Prop
  | start (.request ..) => True
  | _ => False

instance : DecidablePred Event.StartsRequest
  | .start (.request ..) => inferInstanceAs (Decidable True)
  | .start .poll | .exec .. | .abort .. | .kill _ => inferInstanceAs (Decidable False)

variable (crypto : Crypto)

namespace Gateway

/-- Nothing has arrived yet. -/
def init (d : Directory) : Gateway := ⟨[], d, [], .init⟩

/-- The directories that were in effect since a request arrived. -/
def since (g : Gateway) (a : Arrival) : List Directory := g.past.drop a.age ++ [g.directory]

/-- **One step.** -/
def step (g : Gateway) : GatewayEvent → Option Gateway
  | .arrive credentials req =>
    let prog := getCurrentBusiness crypto credentials
    some { g with arrivals := g.arrivals ++ [⟨credentials, req, g.past.length, prog, none⟩] }
  | .look n =>
    match g.arrivals[n]? with
    | some ⟨credentials, req, age, .op q k, session⟩ =>
      let prog := k (g.directory.eval q)
      some { g with arrivals := g.arrivals.set n ⟨credentials, req, age, prog, session⟩ }
    | _ => none
  | .enter n =>
    match g.arrivals[n]? with
    | some ⟨credentials, req, age, .ret (.ok business), none⟩ =>
      (g.system.step crypto (.start (.request business req))).map fun s =>
        let session := some g.system.procs.length
        { g with
          arrivals := g.arrivals.set n ⟨credentials, req, age, .ret (.ok business), session⟩
          system := s }
    | _ => none
  | .administer d =>
    if g.directory.Keeps d then some { g with past := g.past ++ [g.directory], directory := d }
    else none
  | .inner e =>
    if e.StartsRequest then none
    else (g.system.step crypto e).map fun s => { g with system := s }

/-- The states that can be reached. -/
def Reachable (g : Gateway) : Prop := ∃ d, Reaches (step crypto) Always (init d) g

end Gateway

end TenantBilling
