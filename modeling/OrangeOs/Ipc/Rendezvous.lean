import Mathlib.Logic.Function.Basic
import Mathlib.Data.List.Nodup
import OrangeOs.Lib.Updates

/-! # Synchronous messages between threads

`ipc_send`, `ipc_receive` and `ipc_abort_thread`, cut where the source gives up the
CPU: what runs under `ipc_lock` is one function, and the return after
`thread_block` is another. The queue of senders that the source links through
`ipc_next_sender` is a list, and the body of a message is left open.
-/

namespace OrangeOs.Ipc

open Function

/-- `IPC_ANY`. -/
def ipcAny : Int32 := -1

/-- `ready` stands for `TASK_READY` and `TASK_RUNNING`, `zombie` for `TASK_ZOMBIE`
and `TASK_DEAD`. -/
inductive Status where
  | ready
  | blocked
  | zombie
deriving DecidableEq

abbrev Tid := Nat

/-- `struct message`: the type and value are the body. -/
structure Message (β : Type) where
  sourcePid : UInt32
  body : β
deriving DecidableEq

/-- The IPC fields of `struct thread`; `process` is the pid of its process, if it has
one. -/
structure Thread (β : Type) where
  process : Option UInt32
  status : Status
  ipcSending : Bool
  ipcReceiving : Bool
  ipcReceiveFrom : Int32
  ipcStatus : Int
  ipcMessage : Message β
  ipcWaitingFor : Option Tid
  ipcSenders : List Tid

abbrev Threads (β : Type) := Tid → Thread β

variable {β : Type}

def Threads.modify (s : Threads β) (t : Tid) (f : Thread β → Thread β) : Threads β :=
  update s t (f (s t))

variable (s : Threads β)

@[simp] theorem Threads.modify_self (t : Tid) (f : Thread β → Thread β) :
    s.modify t f t = f (s t) := update_self _ _ _

theorem Threads.modify_of_ne {t u : Tid} (h : u ≠ t) (f : Thread β → Thread β) :
    s.modify t f u = s u := update_of_ne h _ _

theorem Threads.modify_proj {γ : Type} (g : Thread β → γ) {s : Threads β} {t : Tid}
    {f : Thread β → Thread β} (h : g (f (s t)) = g (s t)) (u : Tid) : g (s.modify t f u) = g (s u) :=
  Updates.proj g h u

theorem Threads.modify_modify (t : Tid) (f g : Thread β → Thread β) :
    (s.modify t f).modify t g = s.modify t fun x => g (f x) := by
  unfold Threads.modify
  rw [update_idem, update_self]

def admits (filter : Int32) (pid : UInt32) : Bool := filter == ipcAny || filter == pid.toInt32

def sourceMatches (receiver sender : Thread β) : Bool :=
  admits receiver.ipcReceiveFrom (sender.process.getD 0)

/-- `thread_unblock`. -/
def Thread.unblock (t : Thread β) : Thread β :=
  if t.status = .blocked then { t with status := .ready } else t

/-- The start of `thread_block`. -/
def Thread.block (t : Thread β) : Thread β := { t with status := .blocked }

/-! ## Sending -/

def Thread.accept (m : Message β) (t : Thread β) : Thread β :=
  { t with ipcMessage := m, ipcReceiving := false, ipcReceiveFrom := ipcAny }

def Thread.startSending (m : Message β) (destination : Tid) (t : Thread β) : Thread β :=
  { t with ipcMessage := m, ipcSending := true, ipcStatus := 0, ipcWaitingFor := some destination }

def Thread.enqueueSender (sender : Tid) (t : Thread β) : Thread β :=
  { t with ipcSenders := t.ipcSenders ++ [sender] }

/-- `ipc_send` by thread `current` up to `thread_block`; `none` if it blocks. -/
def ipcSend (s : Threads β) (current : Tid) (destination : Option Tid) (message : Option β) :
    Option Int × Threads β :=
  match destination, message with
  | some d, some body =>
    if d = current ∨ (s d).status = .zombie then (some (-1), s)
    else
      match (s current).process, (s d).process with
      | some pid, some _ =>
        if (s d).ipcReceiving = true ∧ sourceMatches (s d) (s current) = true then
          (some 0, s.modify d fun t => (t.accept ⟨pid, body⟩).unblock)
        else
          (none, (s.modify current fun t => t.startSending ⟨pid, body⟩ d).modify d fun t =>
            t.enqueueSender current)
      | _, _ => (some (-1), s)
  | _, _ => (some (-1), s)

/-- What `ipc_send` returns when `thread_block` does. -/
def ipcSendResult (t : Thread β) : Int := t.ipcStatus

/-! ## Receiving -/

/-- The sender is done: its message has been taken, or its destination is gone. -/
def Thread.endSending (status : Int) (t : Thread β) : Thread β :=
  { t with ipcSending := false, ipcStatus := status, ipcWaitingFor := none }

def dequeueMatchingSender (s : Threads β) (receiver : Tid) : Option Tid :=
  (s receiver).ipcSenders.find? fun t => sourceMatches (s receiver) (s t)

def Thread.setFilter (filter : Int32) (t : Thread β) : Thread β := { t with ipcReceiveFrom := filter }

def Thread.removeSender (sender : Tid) (t : Thread β) : Thread β :=
  { t with ipcSenders := t.ipcSenders.erase sender }

/-- `ipc_receive` by thread `current` up to `thread_block`; `none` if it blocks. -/
def ipcReceive (s : Threads β) (current : Tid) (sourcePid : Int32) :
    Option (Message β) × Threads β :=
  let s := s.modify current (Thread.setFilter sourcePid)
  match dequeueMatchingSender s current with
  | some sender =>
    let message := (s sender).ipcMessage
    let s := s.modify current (Thread.removeSender sender)
    let s := s.modify sender fun t => (t.endSending 0).unblock
    (some message, s.modify current (Thread.setFilter ipcAny))
  | none => (none, s.modify current fun t => { t with ipcReceiving := true })

/-- What `ipc_receive` returns when `thread_block` does: an error, or the message. -/
def ipcReceiveResult (t : Thread β) : Except Int (Message β) :=
  if t.ipcStatus ≠ 0 then .error t.ipcStatus else .ok t.ipcMessage

/-! ## Aborting -/

def Thread.abort (t : Thread β) : Thread β :=
  { t with
    ipcSending := false
    ipcReceiving := false
    ipcWaitingFor := none
    ipcReceiveFrom := ipcAny
    ipcSenders := [] }

/-- `ipc_abort_thread`: the target leaves the queue it waits in, and the senders that
wait for it fail. -/
def ipcAbortThread (s : Threads β) (target : Tid) : Threads β :=
  let s := match (s target).ipcSending, (s target).ipcWaitingFor with
    | true, some d => s.modify d (Thread.removeSender target)
    | _, _ => s
  let senders := (s target).ipcSenders
  senders.foldl (fun s t => s.modify t fun u => (u.endSending (-1)).unblock)
    (s.modify target Thread.abort)

/-! ## Thread by thread -/

theorem foldl_modify {s : Threads β} {l : List Tid} (hl : l.Nodup) (f : Thread β → Thread β)
    (u : Tid) :
    l.foldl (fun s t => s.modify t f) s u = if u ∈ l then f (s u) else s u := by
  induction l generalizing s with
  | nil => rfl
  | cons t l ih =>
    obtain ⟨ht, hl⟩ := List.nodup_cons.mp hl
    rw [List.foldl_cons, ih hl]
    by_cases hut : u = t
    · subst hut
      rw [if_neg ht, if_pos List.mem_cons_self, Threads.modify_self]
    · simp [Threads.modify_of_ne s hut, hut]

/-- The target of a request waiting in no queue, or in that of `d`. -/
def Thread.leave (target d : Tid) (waiting : Option Tid) (t : Thread β) : Thread β :=
  if waiting = some d then t.removeSender target else t

theorem ipcAbortThread_apply {s : Threads β} {target : Tid}
    (hnodup : (s target).ipcSenders.Nodup) (hself : target ∉ (s target).ipcSenders)
    (hwait : (s target).ipcWaitingFor ≠ some target)
    (hsend : (s target).ipcSending = (s target).ipcWaitingFor.isSome) (u : Tid) :
    ipcAbortThread s target u =
      if u = target then (s target).abort
      else if u ∈ (s target).ipcSenders then
        (((s u).leave target u (s target).ipcWaitingFor).endSending (-1)).unblock
      else (s u).leave target u (s target).ipcWaitingFor := by
  have hleft : ∀ u, (match (s target).ipcSending, (s target).ipcWaitingFor with
      | true, some d => s.modify d (Thread.removeSender target)
      | _, _ => s) u = (s u).leave target u (s target).ipcWaitingFor := by
    intro u
    rw [hsend]
    cases (s target).ipcWaitingFor with
    | none => rfl
    | some d =>
      unfold Thread.leave
      by_cases hud : u = d
      · subst hud
        simp
      · simp [Threads.modify_of_ne s hud, Ne.symm hud]
  unfold ipcAbortThread
  have htarget := hleft target
  rw [Thread.leave, if_neg hwait] at htarget
  rw [htarget, foldl_modify hnodup]
  by_cases hut : u = target
  · subst hut
    rw [if_neg hself, if_pos rfl, Threads.modify_self, htarget]
  · rw [if_neg hut, Threads.modify_of_ne _ hut, hleft u]

theorem ipcSend_cases (t d : Tid) (body : β) :
    ipcSend s t (some d) (some body) = (some (-1), s) ∨
      (d ≠ t ∧ (s d).status ≠ .zombie ∧ ∃ pid, (s t).process = some pid ∧
        (((s d).ipcReceiving = true ∧ sourceMatches (s d) (s t) = true ∧
          ipcSend s t (some d) (some body) =
            (some 0, s.modify d fun t => (t.accept ⟨pid, body⟩).unblock)) ∨
        ipcSend s t (some d) (some body) =
          (none, (s.modify t fun t => t.startSending ⟨pid, body⟩ d).modify d fun x =>
            x.enqueueSender t))) := by
  unfold ipcSend
  dsimp only
  split
  · exact Or.inl rfl
  next hbad =>
    push Not at hbad
    cases hpid : (s t).process with
    | none => exact Or.inl rfl
    | some pid =>
      cases (s d).process with
      | none => exact Or.inl rfl
      | some _ =>
        refine Or.inr ⟨hbad.1, hbad.2, pid, rfl, ?_⟩
        dsimp only
        split
        · next hwait => exact Or.inl ⟨hwait.1, hwait.2, rfl⟩
        · exact Or.inr rfl

end OrangeOs.Ipc
