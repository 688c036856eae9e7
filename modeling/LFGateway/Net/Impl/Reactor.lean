import Mathlib.Logic.Function.Basic
import LFGateway.Foundation.Bytes

/-!
This module contains what the loop thread works on: the connections with their `Channel`s, the two
servers, the interest list of epoll and a record of the system calls made through each connection.
Connections are numbered in the order in which they are created; the number stands for the address
of the object, so it is also what `epoll_event.data.ptr` holds.
-/

namespace LFGateway

open Foundation

abbrev Events := BitVec 32

def EPOLLIN : Events := 0x001
def EPOLLPRI : Events := 0x002
def EPOLLOUT : Events := 0x004
def EPOLLERR : Events := 0x008
def EPOLLHUP : Events := 0x010
def EPOLLRDHUP : Events := 0x2000

structure Channel where
  fd_ : Int
  events_ : Events
  revents_ : Events
  index_ : Int
  removed_ : Bool
  deriving DecidableEq, Repr

def Channel.new (fd : Int) : Channel := ⟨fd, 0, 0, -1, false⟩

def Channel.isWriting (channel : Channel) : Bool := channel.events_ &&& EPOLLOUT ≠ 0

inductive ServerId where
  | api
  | mgmt
  deriving DecidableEq, Repr

def ServerId.name : ServerId → Bytes
  | api => Bytes.ofAscii "ApiServer"
  | mgmt => Bytes.ofAscii "MgmtServer"

/--
`server` is the one whose `removeConnection` is bound to `closeCallback_`.
-/
structure TcpConnection where
  sockfd_ : Int
  name_ : Bytes
  server : ServerId
  channel_ : Channel
  inputBuffer_ : Bytes
  outputBuffer_ : Bytes
  deriving DecidableEq, Repr

/--
`connections_` maps names to connections, as an association list.
-/
structure TcpServer where
  name_ : Bytes
  nextConnId_ : Int
  connections_ : List (Bytes × Nat)
  deriving DecidableEq, Repr

structure Interest where
  ptr : Nat
  events : Events
  deriving DecidableEq, Repr

inductive EpollOp where
  | add
  | mod
  | del
  deriving DecidableEq, Repr

/--
What was called through a connection: the system calls and `TcpServer::removeConnection`.
-/
inductive Call where
  | epollCtl (op : EpollOp) (fd : Int) (events : Events)
  | read (fd : Int) (data : Bytes)
  | write (fd : Int) (data : Bytes)
  | close (fd : Int)
  | removeConnection
  deriving DecidableEq, Repr

/--
The state of the loop thread. `created` connections exist. `tasks` holds what was enqueued to the
thread pool, `calls` what was called through each connection, `sent` the messages its `sendInLoop`
got and `written` the bytes the kernel accepted from it.
-/
structure Reactor where
  created : Nat
  conn : Nat → TcpConnection
  server : ServerId → TcpServer
  interest : Int → Option Interest
  tasks : List (Nat × Bytes)
  calls : Nat → List Call
  sent : Nat → List Bytes
  written : Nat → Bytes

namespace Reactor

def modify (r : Reactor) (c : Nat) (f : TcpConnection → TcpConnection) : Reactor :=
  { r with conn := Function.update r.conn c (f (r.conn c)) }

def modifyChannel (r : Reactor) (c : Nat) (f : Channel → Channel) : Reactor :=
  r.modify c fun conn => { conn with channel_ := f conn.channel_ }

def call (r : Reactor) (c : Nat) (x : Call) : Reactor :=
  { r with calls := Function.update r.calls c (r.calls c ++ [x]) }

/--
`::epoll_ctl` for the channel of connection `c`.
-/
def epollCtl (r : Reactor) (c : Nat) (op : EpollOp) (events : Events) : Reactor :=
  let fd := (r.conn c).channel_.fd_
  let entry :=
    match op with
    | .add | .mod => some ⟨c, events⟩
    | .del => none
  { r with interest := Function.update r.interest fd entry }.call c (.epollCtl op fd events)

def updateChannel (r : Reactor) (c : Nat) : Reactor :=
  let channel := (r.conn c).channel_
  if channel.index_ < 0 then
    (r.epollCtl c .add channel.events_).modifyChannel c ({ · with index_ := 1 })
  else
    r.epollCtl c .mod channel.events_

def removeChannel (r : Reactor) (c : Nat) : Reactor :=
  if (r.conn c).channel_.index_ ≥ 0 then
    (r.epollCtl c .del 0).modifyChannel c ({ · with index_ := -1 })
  else
    r

end Reactor

namespace Channel

open Reactor

variable (r : Reactor) (c : Nat)

def update : Reactor :=
  if (r.conn c).channel_.removed_ then r else r.updateChannel c

/--
`enableReading`, `enableWriting`, `disableWriting` and `disableAll` differ in the new `events_`.
-/
def setEvents (events : Events → Events) : Reactor :=
  if (r.conn c).channel_.removed_ then
    r
  else
    Channel.update (r.modifyChannel c fun ch => { ch with events_ := events ch.events_ }) c

def enableReading : Reactor := setEvents r c fun events_ => events_ ||| (EPOLLIN ||| EPOLLPRI)

def enableWriting : Reactor := setEvents r c fun events_ => events_ ||| EPOLLOUT

def disableWriting : Reactor := setEvents r c fun events_ => events_ &&& ~~~EPOLLOUT

def disableAll : Reactor := setEvents r c fun _ => 0

def remove : Reactor := (r.modifyChannel c ({ · with removed_ := true })).removeChannel c

def markAsRemoved : Reactor := r.modifyChannel c ({ · with removed_ := true })

end Channel
end LFGateway
