import RpcLock.Library.Machine
import RpcLock.Library.RefCount
import RpcLock.Rpc.Message

/-!
# The connections of an `rpcc`

`chan_` is the connection the calls share, and each call keeps its own in `ch`.
Both are references that `refno_` counts.  `get_refconn` works under `chan_m_`,
but the calls that end meanwhile give their references back without it, and a
connection may die at any moment.

A step is one access to the count of a connection, one look at its `dead_`, or
one call of `connect_to_dst`.  A pointer moves in the step that changes its
count: `chan_` is looked at under `chan_m_` only, and `ch` by its thread only, so
that nobody sees the pointer between the two.

`fault` is a failed `VERIFY`, or an access to a connection that was deleted.
-/

namespace RpcLock.Rpcc

/-- Where a thread in `call1` is with respect to `get_refconn`. -/
inductive RefconnPhase where
  | outside
  /-- `chan_` is dead and about to be given up. -/
  | giveUp
  | connecting
  /-- About to give `chan_` to the caller. -/
  | handOver
deriving DecidableEq, Repr

/-- An activation of `call1`. -/
structure ChannelCall where
  ch : Option ConnId
  phase : RefconnPhase
deriving DecidableEq, Repr

/-- How far the destructor is. -/
inductive DestructorPhase where
  | alive
  /-- After `chan_->closeconn()`. -/
  | closed
  | destroyed
deriving DecidableEq, Repr

structure Channel where
  /-- `chan_` -/
  chan : Option ConnId
  /-- The holder of `chan_m_`. -/
  chanM : Option Nat
  calls : Nat → Option ChannelCall
  /-- The activations under way. -/
  running : List Nat
  /-- The connections `connect_to_dst` has made. -/
  made : ConnId → Bool
  /-- `refno_` -/
  refno : ConnId → Nat
  /-- `dead_` -/
  dead : ConnId → Bool
  deleted : ConnId → Bool
  destructor : DestructorPhase
  fault : Bool

inductive ChannelAct where
  /-- A thread enters `call1`. -/
  | call (t : Nat)
  /-- `get_refconn` up to its first test. -/
  | test (t : Nat)
  /-- `chan_->decref()`. -/
  | giveUp (t : Nat)
  /-- `chan_ = connect_to_dst(...)`, which makes a connection or fails. -/
  | connect (t : Nat) (c : Option ConnId)
  /-- `(*ch)->decref()`. -/
  | release (t : Nat)
  /-- `*ch = chan_` and `(*ch)->incref()`, and the end of `get_refconn`. -/
  | take (t : Nat)
  /-- The end of `get_refconn` without a connection. -/
  | leave (t : Nat)
  /-- A send on `ch`, or a look at its `dead_`. -/
  | use (t : Nat)
  /-- The end of `call1`. -/
  | finish (t : Nat)
  /-- A connection dies. -/
  | die (c : ConnId)
  /-- `~rpcc` up to `chan_->closeconn()`. -/
  | close
  /-- `chan_->decref()` in `~rpcc`. -/
  | destroy
deriving DecidableEq, Repr

namespace Channel

/-- `rpcc::rpcc`. -/
def init : Channel where
  chan := none
  chanM := none
  calls _ := none
  running := []
  made _ := false
  refno _ := 0
  dead _ := false
  deleted _ := false
  destructor := .alive
  fault := false

/-- The connection can be accessed. -/
def Live (s : Channel) (c : ConnId) : Prop := s.made c = true ∧ s.deleted c = false

instance (s : Channel) (c : ConnId) : Decidable (s.Live c) := inferInstanceAs (Decidable (_ ∧ _))

def misuse (s : Channel) : Channel := { s with fault := true }

def setCall (s : Channel) (t : Nat) (call : ChannelCall) : Channel :=
  { s with calls := Function.update s.calls t (some call) }

/-! ## `connection` -/

/-- `connection::connection`. -/
def newConnection (s : Channel) (c : ConnId) : Channel :=
  { s with
    made := Function.update s.made c true
    refno := Function.update s.refno c 1
    dead := Function.update s.dead c false }

/-- `connection::incref`. -/
def incref (s : Channel) (c : ConnId) : Channel :=
  if s.Live c then { s with refno := Function.update s.refno c (s.refno c + 1) } else s.misuse

/-- `connection::decref`, with the `delete` of a dead connection. -/
def decref (s : Channel) (c : ConnId) : Channel :=
  if s.Live c ∧ s.refno c ≠ 0 then
    let s := { s with refno := Function.update s.refno c (s.refno c - 1) }
    if s.refno c = 0 ∧ s.dead c = true then
      { s with deleted := Function.update s.deleted c true }
    else s
  else s.misuse

/-! ## `rpcc::get_refconn` -/

/-- `!chan_ || chan_->isdead()`. -/
def test (s : Channel) (t : Nat) (call : ChannelCall) : Channel :=
  let locked := { s with chanM := some t }
  match s.chan with
  | none => locked.setCall t { call with phase := .connecting }
  | some c =>
      if s.Live c then
        locked.setCall t { call with phase := if s.dead c then .giveUp else .handOver }
      else s.misuse

def giveUp (s : Channel) (t : Nat) (call : ChannelCall) (c : ConnId) : Channel :=
  ({ s with chan := none }.setCall t { call with phase := .connecting }).decref c

def connect (s : Channel) (t : Nat) (call : ChannelCall) : Option ConnId → Channel
  | none => s.setCall t { call with phase := .handOver }
  | some c =>
      { s.newConnection c with chan := some c }.setCall t { call with phase := .handOver }

def release (s : Channel) (t : Nat) (call : ChannelCall) (c : ConnId) : Channel :=
  (s.setCall t { call with ch := none }).decref c

def take (s : Channel) (t : Nat) (c : ConnId) : Channel :=
  ({ s with chanM := none }.setCall t ⟨some c, .outside⟩).incref c

def leave (s : Channel) (t : Nat) (call : ChannelCall) : Channel :=
  { s with chanM := none }.setCall t { call with phase := .outside }

/-! ## `rpcc::call1` and `rpcc::~rpcc` -/

def enter (s : Channel) (t : Nat) : Channel :=
  { s with running := t :: s.running }.setCall t ⟨none, .outside⟩

def finish (s : Channel) (t : Nat) (call : ChannelCall) : Channel :=
  let s := { s with
    calls := Function.update s.calls t none
    running := s.running.erase t }
  match call.ch with
  | none => s
  | some c => s.decref c

def close (s : Channel) : Channel :=
  match s.chan with
  | none => { s with destructor := .destroyed }
  | some c =>
      if s.Live c then
        { s with dead := Function.update s.dead c true, destructor := .closed }
      else s.misuse

def destroy (s : Channel) (c : ConnId) : Channel :=
  { s with chan := none, destructor := .destroyed }.decref c

/-- One step, where it is enabled.  The destructor runs when no thread uses the
`rpcc`, and no thread uses it afterwards. -/
def step (s : Channel) : ChannelAct → Option Channel
  | .call t => if s.destructor = .alive ∧ s.calls t = none then some (s.enter t) else none
  | .test t =>
      match s.calls t with
      | some call => if call.phase = .outside ∧ s.chanM = none then some (s.test t call) else none
      | none => none
  | .giveUp t =>
      match s.calls t, s.chan with
      | some call, some c => if call.phase = .giveUp then some (s.giveUp t call c) else none
      | _, _ => none
  | .connect t o =>
      match s.calls t with
      | some call =>
          if call.phase = .connecting ∧ ∀ c ∈ o, s.made c = false then some (s.connect t call o)
          else none
      | none => none
  | .release t =>
      match s.calls t with
      | some ⟨some c, .handOver⟩ =>
          if s.chan = none then none else some (s.release t ⟨some c, .handOver⟩ c)
      | _ => none
  | .take t =>
      match s.calls t, s.chan with
      | some ⟨none, .handOver⟩, some c => some (s.take t c)
      | _, _ => none
  | .leave t =>
      match s.calls t with
      | some call =>
          if call.phase = .handOver ∧ s.chan = none then some (s.leave t call) else none
      | none => none
  | .use t =>
      match s.calls t with
      | some ⟨some c, .outside⟩ => some (if s.Live c then s else s.misuse)
      | _ => none
  | .finish t =>
      match s.calls t with
      | some call => if call.phase = .outside then some (s.finish t call) else none
      | none => none
  | .die c => if s.Live c then some { s with dead := Function.update s.dead c true } else none
  | .close => if s.destructor = .alive ∧ s.running = [] then some s.close else none
  | .destroy =>
      match s.chan with
      | some c => if s.destructor = .closed then some (s.destroy c) else none
      | none => none

def next (s : Channel) (a : ChannelAct) : Option Channel := if s.fault then none else s.step a

end Channel

/-- An `rpcc` with any number of threads in `call1`, under arbitrary deaths and
arbitrary results of `connect_to_dst`. -/
def channelMachine : Machine Channel ChannelAct where
  init := .init
  next := Channel.next

end RpcLock.Rpcc
