import LFGateway.Foundation.Machine

/-!
This module contains `AsyncLogger`: the threads that call `log`, the thread of `backend_loop` and the
destructor as one machine. Every section that the code runs with `mutex_` held is one step.
-/

namespace LFGateway

variable {Msg : Type u}

inductive Backend where
  /-- `init` has not run -/
  | notStarted
  /-- about to open the file -/
  | opening
  /-- at `while (running_)` -/
  | testing
  /-- past the test: about to lock `mutex_`, or in `cv_.wait_for` -/
  | waiting
  /-- `mutex_` is released, message `k` of `back_buffer_` is next -/
  | writing (k : Nat)
  /-- returned from `backend_loop` -/
  | exited
  deriving DecidableEq, Repr

inductive LoggerDestructor where
  | notStarted
  /-- `running_ = false` is next -/
  | storing
  /-- `cv_.notify_all()` is next -/
  | notifying
  | joining
  | returned
  deriving DecidableEq, Repr

/--
`file` holds the lines of the file at `filepath_`. `appended` records the messages in the order in
which `log` pushed them, and a message is known by its place in it: `answered` are those whose `log`
has returned, `promised` those whose `log` had returned when the destructor started.
-/
structure AsyncLogger (Msg : Type u) where
  running_ : Bool
  front_buffer_ : List Msg
  back_buffer_ : List Msg
  backend : Backend
  destructor : LoggerDestructor
  file : List Msg
  appended : List Msg
  answered : List Nat
  promised : List Nat
  deriving DecidableEq, Repr

namespace AsyncLogger

def BUFFER_THRESHOLD : Nat := 100

/--
The constructed logger, next to a file that may have lines already.
-/
def constructed (old : List Msg) : AsyncLogger Msg :=
  ⟨false, [], [], .notStarted, .notStarted, old, [], [], []⟩

def ready (logger : AsyncLogger Msg) : Bool :=
  !logger.running_ || decide (BUFFER_THRESHOLD ≤ logger.front_buffer_.length)

inductive Label (Msg : Type u) where
  | init
  /-- a call of `log` pushes its message -/
  | log (msg : Msg)
  /-- the call of `log` that pushed message `k` returns -/
  | logReturn (k : Nat)
  | openFile
  /-- the backend evaluates `running_` -/
  | test
  /-- `cv_.wait_for` returns, on its predicate or on a timeout, and the buffers are swapped -/
  | swap (timeout : Bool)
  /-- the backend writes its next message, or clears `back_buffer_` behind the last one -/
  | write
  /-- `~AsyncLogger` is called -/
  | destroy
  /-- `running_ = false` -/
  | store
  | notifyAll
  | join
  deriving DecidableEq, Repr

def stepCaller (logger : AsyncLogger Msg) : Label Msg → Option (AsyncLogger Msg)
  | .init =>
    if logger.backend = .notStarted ∧ logger.destructor = .notStarted then
      some { logger with running_ := true, backend := .opening }
    else
      none
  | .log msg =>
    if logger.destructor = .returned then
      none
    else
      some { logger with
        front_buffer_ := logger.front_buffer_ ++ [msg]
        appended := logger.appended ++ [msg]
      }
  | .logReturn k =>
    if k < logger.appended.length ∧ k ∉ logger.answered then
      some { logger with answered := k :: logger.answered }
    else
      none
  | _ => none

def stepBackend (logger : AsyncLogger Msg) : Label Msg → Option (AsyncLogger Msg)
  | .openFile =>
    if logger.backend = .opening then
      some { logger with backend := .testing }
    else
      none
  | .test =>
    if logger.backend = .testing then
      some { logger with backend := if logger.running_ then .waiting else .exited }
    else
      none
  | .swap timeout =>
    if logger.backend = .waiting ∧ (timeout || logger.ready) then
      some { logger with
        front_buffer_ := logger.back_buffer_
        back_buffer_ := logger.front_buffer_
        backend := .writing 0
      }
    else
      none
  | .write =>
    match logger.backend with
    | .writing k =>
      match logger.back_buffer_[k]? with
      | some msg => some { logger with file := logger.file ++ [msg], backend := .writing (k + 1) }
      | none => some { logger with back_buffer_ := [], backend := .testing }
    | _ => none
  | _ => none

/--
The steps of `~AsyncLogger`. `join` waits for a backend that was started.
-/
def stepDestructor (logger : AsyncLogger Msg) : Label Msg → Option (AsyncLogger Msg)
  | .destroy =>
    if logger.destructor = .notStarted then
      some { logger with destructor := .storing, promised := logger.answered }
    else
      none
  | .store =>
    if logger.destructor = .storing then
      some { logger with running_ := false, destructor := .notifying }
    else
      none
  | .notifyAll =>
    if logger.destructor = .notifying then
      some { logger with destructor := .joining }
    else
      none
  | .join =>
    if logger.destructor = .joining ∧ (logger.backend = .notStarted ∨ logger.backend = .exited) then
      some { logger with destructor := .returned }
    else
      none
  | _ => none

def step (logger : AsyncLogger Msg) (l : Label Msg) : Option (AsyncLogger Msg) :=
  match l with
  | .init | .log _ | .logReturn _ => logger.stepCaller l
  | .openFile | .test | .swap _ | .write => logger.stepBackend l
  | .destroy | .store | .notifyAll | .join => logger.stepDestructor l

end AsyncLogger
end LFGateway
