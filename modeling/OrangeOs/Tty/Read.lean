import OrangeOs.Lib.Machine
import OrangeOs.Proc.Killed

/-! # Reading from the console

`tty_service_read` holds `tty_input_request_lock` while it sends a request to the input service
and waits for the reply. It runs up to the point where it blocks, and is resumed there. Who holds
the lock is written down nowhere: it is the stage that a thread has reached.
-/

namespace OrangeOs.Tty

open Ipc Proc

/-- The type and the value of `struct message`. -/
structure Body where
  type : UInt32
  value : UInt64
deriving DecidableEq, Inhabited

/-- `TTY_MESSAGE_READ_REQUEST`. -/
def readRequest : UInt32 := 0x54545901

/-- `TTY_MESSAGE_READ_REPLY`. -/
def readReply : UInt32 := 0x54545902

/-- `TTY_SERVICE_BUFFER_SIZE`. -/
def serviceBufferSize : UInt64 := 4096

/-- `tty_input_request_lock` among the mutexes of the kernel. -/
def inputRequestLock : Nat := 0

/-- Where a thread is in `tty_service_read`: in front of it, or in the call that blocked. -/
inductive Stage where
  | outside
  | acquiring (length : UInt64)
  | sending (length : UInt64)
  | receiving (length : UInt64)
deriving DecidableEq

/-- Between `mutex_acquire` and `mutex_release`. -/
def Stage.holds : Stage → Bool
  | .outside | .acquiring _ => false
  | .sending _ | .receiving _ => true

/-- The kernel, `tty_input_service_task`, and the readers. -/
structure Console where
  kernel : Kernel Body
  service : Option Tid
  stage : Tid → Stage

namespace Console

def setStage (s : Console) (stage : Stage) : Console :=
  { s with stage := Function.update s.stage s.kernel.current stage }

/-- `mutex_release` and the return. -/
def finish (s : Console) (result : Int) : Option Int × Console :=
  (some result,
    { s with kernel := (s.kernel.mutexRelease inputRequestLock).enter .user }.setStage .outside)

def accept (s : Console) (length : UInt64) (reply : Message Body) : Option Int × Console :=
  if reply.body.type ≠ readReply ∨ reply.body.value > length then s.finish (-1)
  else s.finish reply.body.value.toNat

/-- From `ipc_receive` on; `none` if it blocks. -/
def receive (s : Console) (service : Tid) (length : UInt64) : Option Int × Console :=
  match s.kernel.ipcReceive ((s.kernel.ipc service).process.getD 0).toInt32 with
  | (some reply, k) => { s with kernel := k }.accept length reply
  | (none, k) => (none, { s with kernel := k }.setStage (.receiving length))

/-- From `ipc_send` on. -/
def request (s : Console) (service : Tid) (length : UInt64) : Option Int × Console :=
  match s.kernel.ipcSend service ⟨readRequest, length⟩ with
  | (some result, k) =>
    if result ≠ 0 then { s with kernel := k }.finish (-1)
    else { s with kernel := k }.receive service length
  | (none, k) => (none, { s with kernel := k }.setStage (.sending length))

/-- From `mutex_acquire` on: one round of its loop. -/
def acquire (s : Console) (service : Tid) (length : UInt64) : Option Int × Console :=
  let s' := { s with kernel := s.kernel.mutexAcquire inputRequestLock }
  if s.kernel.locked inputRequestLock = true then (none, s'.setStage (.acquiring length))
  else s'.request service length

def ttyServiceRead (s : Console) (length : UInt64) : Option Int × Console :=
  match s.service with
  | none => (some (-1), s)
  | some service =>
    if length = 0 ∨ s.kernel.status service = .zombie ∨ length > serviceBufferSize then
      (some (-1), s)
    else s.acquire service length

/-- What follows `thread_block` in the call of `tty_service_read` the current thread is in. -/
def resume (s : Console) : Option Int × Console :=
  match s.service, s.stage s.kernel.current with
  | some service, .acquiring length => s.acquire service length
  | some service, .sending length =>
    if ipcSendResult (s.kernel.ipc s.kernel.current) ≠ 0 then s.finish (-1)
    else s.receive service length
  | some _, .receiving length =>
    match ipcReceiveResult (s.kernel.ipc s.kernel.current) with
    | .error _ => s.finish (-1)
    | .ok reply => s.accept length reply
  | _, _ => (none, s)

/-! ## Steps -/

/-- The current thread is not in `tty_service_read`. -/
def idle (s : Console) : Bool := s.stage s.kernel.current == .outside

/-- Steps of the kernel: by interrupts at any time, by a thread outside of `tty_service_read`, and
not with its lock. -/
def permits (s : Console) : Proc.Op Body → Bool
  | .schedule | .timerTick | .kill .. => true
  | .acquire m | .release m => s.idle && m != inputRequestLock
  | _ => s.idle

inductive Op where
  | read (length : UInt64)
  | kernel (op : Proc.Op Body)

def step (s : Console) : Op → Console
  | .read length =>
    if s.kernel.inUser = true ∧ s.idle = true then (s.ttyServiceRead length).2 else s
  | .kernel op =>
    if s.permits op = true then { s with kernel := s.kernel.step op }
    else if op.resumes = true ∧ s.kernel.status s.kernel.current = .ready then s.resume.2
    else s

def boot (address : UInt64) (service : Option Tid) : Console :=
  ⟨Kernel.boot address, service, fun _ => .outside⟩

def run (address : UInt64) (service : Option Tid) (ops : List Op) : Console :=
  ops.foldl step (boot address service)

end Console

end OrangeOs.Tty
