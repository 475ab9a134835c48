import GfsCluster.Naming.Liveness

/-! The heartbeat threads of the storage servers beside the naming server. A thread calls
RegisterStorage once and then Heartbeat every interval; a call that fails is followed by a pause
and a new registration. The naming server may handle a call at any point while the caller waits,
and also after the caller has given up. All processes read clocks that advance together. The
state keeps histories that nothing reads: how many calls failed in a row, since when a storage
server runs or not, and since when the naming server is up. -/

namespace GfsCluster

open StepSystem

/-- How often storage servers send heartbeats. -/
def heartbeatInterval : Seconds := 5

/-- `timeout=5` of both calls. -/
def beatTimeout : Seconds := 5

inductive BeatCall
  | register
  | heartbeat
  deriving DecidableEq

/-- The handler that answers the call. -/
def BeatCall.action (addr : Addr) : BeatCall → NamingAction
  | .register => .registerStorage addr
  | .heartbeat => .heartbeat addr

/-- `_heartbeat_loop`. A call is `handled` once the naming server has seen it. -/
inductive BeatPhase
  | off
  | calling (call : BeatCall) (sentAt : Seconds) (handled : Bool)
  | sleeping (wakeAt : Seconds) (next : BeatCall)
  deriving DecidableEq

/-- The heartbeat thread of a storage server; `heartbeats` is the counter that it publishes. -/
structure BeatLoop where
  phase : BeatPhase
  heartbeats : ℕ
  failures : ℕ
  changedAt : Seconds

/-- A request that its sender has given up on and that may still be handled. -/
structure StrayCall where
  call : BeatCall
  addr : Addr
  sentAt : Seconds

/-- The naming server and the heartbeat threads of all storage servers. -/
structure Fleet where
  naming : NamingServer
  loops : Addr → BeatLoop
  stray : List StrayCall
  upSince : Seconds

inductive FleetAction
  | naming (a : NamingAction)
  | tick (d : Seconds)
  | start (addr : Addr)
  | stop (addr : Addr)
  | handle (addr : Addr)
  | handleStray (i : ℕ)
  | dropStray (i : ℕ)
  | succeed (addr : Addr)
  | fail (addr : Addr)
  | wake (addr : Addr)

/-- The actions that the clock and the storage servers bring about. -/
def NamingAction.prompted : NamingAction → Bool
  | .registerStorage _ | .heartbeat _ | .tick _ => true
  | _ => false

/-- The request that stays under way when its sender gives up. -/
def BeatPhase.strays (addr : Addr) : BeatPhase → List StrayCall
  | .calling call sentAt false => [⟨call, addr, sentAt⟩]
  | _ => []

namespace Fleet

def init : Fleet where
  naming := .init
  loops _ := ⟨.off, 0, 0, 0⟩
  stray := []
  upSince := 0

variable (cfg : Settings) (s : Fleet)

abbrev now : Seconds := s.naming.now

/-- The storage server's process runs. -/
def Running (addr : Addr) : Prop := (s.loops addr).phase ≠ .off

def setLoop (addr : Addr) (l : BeatLoop) : Fleet := { s with loops := Function.update s.loops addr l }

def setPhase (addr : Addr) (phase : BeatPhase) : Fleet :=
  s.setLoop addr { s.loops addr with phase := phase }

/-- What a call that went through is followed by. -/
def afterCall (l : BeatLoop) (now : Seconds) : BeatCall → BeatLoop
  | .register => { l with phase := .calling .heartbeat now false, failures := 0 }
  | .heartbeat =>
    { l with
      phase := .sleeping (now + heartbeatInterval) .heartbeat
      heartbeats := l.heartbeats + 1
      failures := 0 }

def step : FleetAction → Option Fleet
  | .naming a =>
    if a.prompted then none
    else (s.naming.next cfg a).map fun n =>
      { s with naming := n, upSince := match a with | .crash => n.now | _ => s.upSince }
  | .tick d => (s.naming.next cfg (.tick d)).map fun n => { s with naming := n }
  | .start addr =>
    match (s.loops addr).phase with
    | .off => some (s.setLoop addr ⟨.calling .register s.now false, 0, 0, s.now⟩)
    | _ => none
  | .stop addr =>
    match (s.loops addr).phase with
    | .off => none
    | phase => some { s.setLoop addr ⟨.off, 0, 0, s.now⟩ with stray := s.stray ++ phase.strays addr }
  | .handle addr =>
    match (s.loops addr).phase with
    | .calling call sentAt false => (s.naming.next cfg (call.action addr)).map fun n =>
        { s.setPhase addr (.calling call sentAt true) with naming := n }
    | _ => none
  | .handleStray i =>
    match s.stray[i]? with
    | some r => (s.naming.next cfg (r.call.action r.addr)).map fun n =>
        { s with naming := n, stray := s.stray.eraseIdx i }
    | none => none
  | .dropStray i =>
    if i < s.stray.length then some { s with stray := s.stray.eraseIdx i } else none
  | .succeed addr =>
    match (s.loops addr).phase with
    | .calling call sentAt true =>
      if s.now ≤ sentAt + beatTimeout then
        some (s.setLoop addr (afterCall (s.loops addr) s.now call))
      else none
    | _ => none
  | .fail addr =>
    match (s.loops addr).phase with
    | .calling call sentAt handled =>
      some { s.setLoop addr { s.loops addr with
          phase := .sleeping (s.now + heartbeatInterval) .register
          failures := (s.loops addr).failures + 1 } with
        stray := s.stray ++ (BeatPhase.calling call sentAt handled).strays addr }
    | _ => none
  | .wake addr =>
    match (s.loops addr).phase with
    | .sleeping wakeAt next =>
      if wakeAt ≤ s.now then some (s.setPhase addr (.calling next s.now false)) else none
    | _ => none

end Fleet

end GfsCluster
