import Interleaving.Thread

/-!
# Operations

What a thread is about to do, as far as the scheduler needs to know it: the kind of the visible
operation and the kind of the object it acts on.
-/

namespace Interleaving

inductive Operation where
  | start
  | stop
  | create
  | join
  | send
  | receive
  /-- Waits until no other thread can run. -/
  | quiesce
  | yield
deriving DecidableEq, Repr, Inhabited

namespace Operation

def all : List Operation := [start, stop, create, join, send, receive, quiesce, yield]

def name : Operation → String
  | start => "Start"
  | stop => "Stop"
  | create => "Create"
  | join => "Join"
  | send => "Send"
  | receive => "Receive"
  | quiesce => "WaitForQuiescence"
  | yield => "Yield"

/-- The operations that are ordered by the life of the thread they act on. -/
def isLifecycle : Operation → Bool
  | start | stop | create | join => true
  | _ => false

def toJson (op : Operation) : Json := .str op.name

def ofJson? : Json → Option Operation := Json.named? all name

end Operation

inductive TargetKind where
  | thread
  | inbox
  | mutex
  | location
deriving DecidableEq, Repr, Inhabited

namespace TargetKind

def all : List TargetKind := [thread, inbox, mutex, location]

def name : TargetKind → String
  | thread => "Thread"
  | inbox => "Inbox"
  | mutex => "Mutex"
  | location => "Variable"

def toJson (kind : TargetKind) : Json := .str kind.name

def ofJson? : Json → Option TargetKind := Json.named? all name

end TargetKind

end Interleaving
