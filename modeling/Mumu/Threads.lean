import Mumu.LogLevels

namespace Mumu.Threads

open Mumu.LogLevels

/-! ### Semaphore -/

abbrev Semaphore := Nat

namespace Semaphore

/-- There is no result while the caller has to wait. -/
def wait : Semaphore → Option Semaphore
  | 0 => none
  | n + 1 => some n

def notify (n : Semaphore) : Semaphore := n + 1

end Semaphore

/-! ### Thread -/

/-- What a callback does with its own thread. -/
inductive Call where
  | getThis
  | setName (name : Str)
  deriving DecidableEq

/-- The arguments of a constructor, the object's address, and what the system
gives to the new thread. -/
structure Start where
  cb : List Call
  name : Str
  address : Nat
  threadId : Int
  handle : Nat
  handle_ne_zero : handle ≠ 0

structure Thread where
  id : Int
  thread : Nat
  cb : Option (List Call)
  name : Str
  semaphore : Semaphore

def unknown : Str := "UNKNOW".toList

/-- The object before `pthread_create`. -/
def Thread.new (x : Start) : Thread :=
  ⟨-1, 0, some x.cb, if x.name = [] then unknown else x.name, 0⟩

/-- Where the owner is: before `pthread_create`, at the semaphore, after the
constructor, and after the destructor. -/
inductive Owner where
  | creating
  | waiting
  | owning
  | gone
  deriving DecidableEq

/-- The next statement of `run`. -/
inductive Run where
  | unborn
  | setThis
  | copyName
  | setId
  | setSystemName
  | swapCb
  | notify
  | invoke
  | callback (rest : List Call)
  | done
  deriving DecidableEq

def Run.notified : Run → Bool
  | .invoke | .callback _ | .done => true
  | _ => false

/-- The new thread, with its thread-local variables and its own callback. -/
structure NewThread where
  run : Run
  tThread : Option Nat
  tThreadName : Str
  systemName : Str
  cb : Option (List Call)
  invokedBy : List Int

inductive Agent where
  | run
  | getThis
  | setName
  deriving DecidableEq

/-- Who reached the object, whether it was alive, and whether `run` had notified
its owner. -/
structure Access where
  agent : Agent
  alive : Bool
  notified : Bool
  deriving DecidableEq

structure State where
  thread : Thread
  owner : Owner
  new : NewThread
  detached : Bool
  accesses : List Access

namespace State

variable (s : State)

def alive : Bool := s.owner ≠ .gone

def access (agent : Agent) : State :=
  { s with accesses := s.accesses ++ [⟨agent, s.alive, s.new.run.notified⟩] }

def getId : Int := s.thread.id

def getThis : Option Nat := s.new.tThread

def getName : Str := s.new.tThreadName

def setName (name : Str) : State :=
  if name = [] then s
  else if s.new.tThread = none then { s with new := { s.new with tThreadName := name } }
  else
    { s.access .setName with
      thread := { s.thread with name := name }
      new := { s.new with tThreadName := name } }

/-- A pointer that is not null reaches the object. -/
def callback : Call → State
  | .getThis => if s.getThis = none then s else s.access .getThis
  | .setName name => s.setName name

def goto (run : Run) : State := { s with new := { s.new with run := run } }

end State

def initial (x : Start) : State :=
  ⟨.new x, .creating, ⟨.unborn, none, unknown, [], none, []⟩, false, []⟩

/-- The next statement of the new thread. -/
def run (x : Start) (s : State) : Except Unit State :=
  match s.new.run with
  | .unborn | .done => .error ()
  | .setThis =>
    .ok { s with new := { s.new with tThread := some x.address, run := .copyName } }
  | .copyName =>
    .ok { s.access .run with new := { s.new with tThreadName := s.thread.name, run := .setId } }
  | .setId =>
    .ok { s.access .run with
      thread := { s.thread with id := x.threadId }
      new := { s.new with run := .setSystemName } }
  | .setSystemName =>
    .ok { s.access .run with
      new := { s.new with systemName := s.thread.name.take 15, run := .swapCb } }
  | .swapCb =>
    .ok { s.access .run with
      thread := { s.thread with cb := s.new.cb }
      new := { s.new with cb := s.thread.cb, run := .notify } }
  | .notify =>
    .ok { s.access .run with
      thread := { s.thread with semaphore := s.thread.semaphore.notify }
      new := { s.new with run := .invoke } }
  | .invoke =>
    match s.new.cb with
    | none => .error ()
    | some calls =>
      .ok { s with
        new := { s.new with invokedBy := s.new.invokedBy ++ [x.threadId], run := .callback calls } }
  | .callback [] => .ok (s.goto .done)
  | .callback (c :: rest) => .ok ((s.callback c).goto (.callback rest))

inductive Act where
  | create
  | wait
  | join
  | destroy
  | run
  deriving DecidableEq

/-- One step of the owner or the new thread; there is none where it has to
wait. -/
def step (x : Start) (s : State) : Act → Except Unit State
  | .create =>
    if s.owner = .creating then
      .ok { s with
        owner := .waiting
        thread := { s.thread with thread := x.handle }
        new := { s.new with run := .setThis } }
    else .error ()
  | .wait =>
    match s.owner, s.thread.semaphore.wait with
    | .waiting, some n =>
      .ok { s with owner := .owning, thread := { s.thread with semaphore := n } }
    | _, _ => .error ()
  | .join =>
    if s.owner = .owning then
      if s.thread.thread = 0 then .ok s
      else if s.new.run = .done then .ok { s with thread := { s.thread with thread := 0 } }
      else .error ()
    else .error ()
  | .destroy =>
    if s.owner = .owning then
      .ok { s with owner := .gone, detached := s.detached || s.thread.thread ≠ 0 }
    else .error ()
  | .run => run x s

end Mumu.Threads
