import LFGateway.Foundation.Machine
import LFGateway.Net.Impl.Reactor

/-!
This module contains `TcpConnection`, `TcpServer` and `Channel::handleEvent`, and the loop thread as
a machine whose labels are the callbacks it runs: an event of a batch, an accept, a functor that was
queued by `send`. What the kernel answers is part of the label.
-/

namespace LFGateway

open Foundation

/--
What `::read` returns: `data` up to the size of the buffer, where no data is end of file, or -1 with
`EAGAIN` or another error.
-/
inductive ReadResult where
  | data (bytes : Bytes)
  | again
  | error
  deriving DecidableEq, Repr

/--
What `::write` returns: how many bytes it accepted, or -1 with `EAGAIN` or another error.
-/
inductive WriteResult where
  | accepted (n : Nat)
  | again
  | error
  deriving DecidableEq, Repr

namespace TcpConnection

variable (r : Reactor) (c : Nat)

def connectDestroyed : Reactor :=
  if (r.conn c).channel_.index_ ≥ 0 then
    Channel.markAsRemoved (Channel.disableAll r c) c
  else
    r

end TcpConnection

/--
`TcpServer::removeConnection`. It runs on the loop thread, where `runInLoop` calls its functor at
once.
-/
def TcpServer.removeConnection (r : Reactor) (s : ServerId) (c : Nat) : Reactor :=
  let server := r.server s
  let connections_ := server.connections_.filter fun entry => entry.1 ≠ (r.conn c).name_
  let r := { r with server := Function.update r.server s { server with connections_ } }
  TcpConnection.connectDestroyed (r.call c .removeConnection) c

namespace TcpConnection

variable (r : Reactor) (c : Nat)

def handleClose : Reactor :=
  if (r.conn c).sockfd_ < 0 then
    r
  else
    let r := Channel.remove r c
    let r := TcpServer.removeConnection r (r.conn c).server c
    let fd := (r.conn c).sockfd_
    let r := { r with interest := Function.update r.interest fd none }.call c (.close fd)
    r.modify c ({ · with sockfd_ := -1 })

def sendInLoop (message : Bytes) : Reactor :=
  let r := { r with sent := Function.update r.sent c (r.sent c ++ [message]) }
  if (r.conn c).sockfd_ < 0 ∨ (r.conn c).channel_.removed_ then
    r
  else
    let r := r.modify c fun conn => { conn with outputBuffer_ := conn.outputBuffer_ ++ message }
    if (r.conn c).channel_.isWriting then r else Channel.enableWriting r c

/--
`messageCallback_`: `Gateway::onApiRequest` copies the buffer into a task for the thread pool,
`Gateway::onMgmtRequest` answers on the loop thread by calling `send` for each of `replies`.
-/
def messageCallback (replies : List Bytes) : Reactor :=
  match (r.conn c).server with
  | .api => { r with tasks := r.tasks ++ [(c, (r.conn c).inputBuffer_)] }
  | .mgmt => replies.foldl (fun r reply => sendInLoop r c reply) r

def handleRead (result : ReadResult) (replies : List Bytes) : Reactor :=
  if (r.conn c).sockfd_ < 0 ∨ (r.conn c).channel_.removed_ then
    r
  else
    let fd := (r.conn c).sockfd_
    match result with
    | .data bytes =>
      let buf := bytes.take 65536
      let r := r.call c (.read fd buf)
      if buf ≠ [] then
        let r := r.modify c fun conn => { conn with inputBuffer_ := conn.inputBuffer_ ++ buf }
        let r := messageCallback r c replies
        -- whatever the callback left in the buffer is dropped
        r.modify c ({ · with inputBuffer_ := [] })
      else
        handleClose r c
    | .again => r.call c (.read fd [])
    | .error => handleClose (r.call c (.read fd [])) c

/--
`TcpConnection::handleWrite`. The kernel accepts at most what it is given.
-/
def handleWrite (result : WriteResult) : Reactor :=
  if (r.conn c).sockfd_ < 0 ∨ (r.conn c).channel_.removed_ then
    r
  else if (r.conn c).channel_.isWriting then
    let fd := (r.conn c).sockfd_
    match result with
    | .accepted n =>
      let data := (r.conn c).outputBuffer_.take n
      let r := r.call c (.write fd data)
      if data ≠ [] then
        let r := { r with written := Function.update r.written c (r.written c ++ data) }
        let r := r.modify c fun conn => { conn with outputBuffer_ := conn.outputBuffer_.drop n }
        if (r.conn c).outputBuffer_ = [] then Channel.disableWriting r c else r
      else
        handleClose r c
    | .again => r.call c (.write fd [])
    | .error => handleClose (r.call c (.write fd [])) c
  else
    r

/--
`TcpConnection::connectEstablished`, the callbacks of the channel are those of `handleEvent`.
-/
def connectEstablished : Reactor := Channel.enableReading r c

end TcpConnection

/--
`Channel::handleEvent` after `set_revents`, for the channel of a connection.
-/
def Channel.handleEvent (r : Reactor) (c : Nat) (revents : Events) (read : ReadResult)
    (write : WriteResult) (replies : List Bytes) : Reactor :=
  let r := r.modifyChannel c ({ · with revents_ := revents })
  if (r.conn c).channel_.removed_ then
    r
  else
    let r :=
      if revents &&& EPOLLHUP ≠ 0 ∧ revents &&& EPOLLIN = 0 then
        TcpConnection.handleClose r c
      else
        r
    let r :=
      if revents &&& (EPOLLERR ||| EPOLLRDHUP) ≠ 0 then
        TcpConnection.handleClose r c
      else
        r
    let r :=
      if revents &&& (EPOLLIN ||| EPOLLPRI ||| EPOLLRDHUP) ≠ 0 then
        TcpConnection.handleRead r c read replies
      else
        r
    if revents &&& EPOLLOUT ≠ 0 then
      TcpConnection.handleWrite r c write
    else
      r

namespace TcpServer

/--
`nextConnId_++` on an `int`.
-/
def incrInt (n : Int) : Int := if n = 2 ^ 31 - 1 then -(2 ^ 31) else n + 1

/--
`snprintf(buf, 64, "%s-%d", name_.c_str(), nextConnId_++)`
-/
def connName (name : Bytes) (id : Int) : Bytes :=
  (name.cStr ++ Bytes.ofAscii "-" ++ Bytes.ofInt id).take 63

def newConnection (r : Reactor) (s : ServerId) (sockfd : Int) : Reactor :=
  let server := r.server s
  let name := connName server.name_ server.nextConnId_
  let c := r.created
  -- `connections_[connName] = conn` replaces an entry of the same name
  let connections_ := server.connections_.filter (fun entry => entry.1 ≠ name) ++ [(name, c)]
  let nextConnId_ := incrInt server.nextConnId_
  let r := { r with
    created := c + 1
    conn := Function.update r.conn c ⟨sockfd, name, s, .new sockfd, [], []⟩
    server := Function.update r.server s { server with nextConnId_, connections_ }
  }
  TcpConnection.connectEstablished r c

end TcpServer

namespace Reactor

/--
Both servers have started and no connection exists.
-/
def init : Reactor where
  created := 0
  conn := fun _ => ⟨-1, [], .api, .new (-1), [], []⟩
  server := fun s => ⟨s.name, 1, []⟩
  interest := fun _ => none
  tasks := []
  calls := fun _ => []
  sent := fun _ => []
  written := fun _ => []

inductive Label where
  /-- an event of the current batch whose `data.ptr` is the channel of connection `c` -/
  | event (c : Nat) (revents : Events) (read : ReadResult) (write : WriteResult)
      (replies : List Bytes)
  /-- `Acceptor::handleRead` with the result of `::accept4` -/
  | accept (s : ServerId) (connfd : Int)
  /-- the functor that `TcpConnection::send` queued from a worker thread -/
  | functor (c : Nat) (message : Bytes)
  deriving DecidableEq, Repr

/--
No open connection has this file descriptor. The kernel may reuse the number of a closed one.
-/
def Unused (r : Reactor) (fd : Int) : Prop := ∀ c < r.created, (r.conn c).sockfd_ ≠ fd

instance (r : Reactor) (fd : Int) : Decidable (r.Unused fd) :=
  inferInstanceAs (Decidable (∀ c < r.created, (r.conn c).sockfd_ ≠ fd))

def step (r : Reactor) : Label → Option Reactor
  | .event c revents read write replies =>
    if c < r.created then some (Channel.handleEvent r c revents read write replies) else none
  | .accept s connfd =>
    if connfd < 0 then
      some r
    else if r.Unused connfd then
      some (TcpServer.newConnection r s connfd)
    else
      none
  | .functor c message =>
    if c < r.created then some (TcpConnection.sendInLoop r c message) else none

end Reactor
end LFGateway
