import OrangeOs.Proc.Kernel

/-! # Futexes

The buckets of `futex.c`, whose lists run through the threads themselves, and the calls that
queue and wake threads. A loop along a bucket reads the next thread before it unlinks one; its
bound is the number of threads ever made.
-/

namespace OrangeOs.Proc

open Ipc Function

def futexBucketCount : Nat := 64

/-- `FUTEX_ERR_INTR`. -/
def futexErrIntr : Int := -4

def futexHash (process address : UInt64) : Nat :=
  let value := process ^^^ (address >>> 12)
  let value := value ^^^ (address >>> 27)
  let value := value * 0x9E3779B185EBCA87
  ((value >>> 32).toUInt32 &&& 63).toNat

namespace Futexes

def setNode (f : Futexes) (t : Tid) (g : Waiter → Waiter) : Futexes :=
  { f with node := update f.node t (g (f.node t)) }

/-- A write through a pointer that may be null, guarded by the test for it. -/
def setNode? (f : Futexes) (t : Option Tid) (g : Waiter → Waiter) : Futexes :=
  match t with
  | some t => f.setNode t g
  | none => f

/-- `unlink_waiter_locked`. -/
def unlinkWaiter (f : Futexes) (b : Nat) (t : Tid) : Futexes :=
  let f := match (f.node t).prev with
    | some p => f.setNode p fun w => { w with next := (f.node t).next }
    | none =>
      if f.head b = some t then { f with head := update f.head b (f.node t).next } else f
  let f := f.setNode? (f.node t).next fun w => { w with prev := (f.node t).prev }
  let f := f.setNode t fun w => { w with prev := none, next := none, waiting := false }
  { f with waiterCount := f.waiterCount - 1 }

/-- `enqueue_waiter_locked`. -/
def enqueueWaiter (f : Futexes) (b : Nat) (t : Tid) (p : ProcId) (uaddr : UInt64) : Futexes :=
  let f := f.setNode t fun w => { w with
    waiting := true, bucket := b, process := some p, uaddr := uaddr, prev := none,
    next := f.head b }
  let f := f.setNode? (f.head b) fun w => { w with prev := some t }
  { f with head := update f.head b (some t), waiterCount := f.waiterCount + 1 }

end Futexes

namespace Kernel

variable {β : Type}

/-- `futex_wait` by the current thread, once the word has the expected value. -/
def futexWait (k : Kernel β) (uaddr : UInt64) : Kernel β :=
  match k.processCurrent with
  | none => k
  | some p =>
    if p = kernelProcess ∨ (k.proc p).exitRequested = true then k
    else
      let index := futexHash (k.proc p).address uaddr
      let futex := (k.futex.setNode k.current fun w => { w with result := 0 }).enqueueWaiter index
        k.current p uaddr
      ({ k with futex := futex }.block).enter .futex

/-- A waiter leaves its bucket with a result and becomes ready. -/
def wakeWaiter (k : Kernel β) (b : Nat) (t : Tid) (result : Int) : Kernel β :=
  let futex := (k.futex.unlinkWaiter b t).setNode t fun w => { w with result := result }
  { k with futex := futex }.threadUnblock t

/-- The loop along a bucket: the waiters that `wanted` selects are woken, `left` of them at most.
The number is what remains of `left`. -/
def wakeLoop (b : Nat) (wanted : Waiter → Bool) (result : Int) :
    Nat → Nat → Option Tid → Kernel β → Nat × Kernel β
  | 0, left, _, k => (left, k)
  | _ + 1, 0, _, k => (0, k)
  | _ + 1, left + 1, none, k => (left + 1, k)
  | n + 1, left + 1, some t, k =>
    let next := (k.futex.node t).next
    if wanted (k.futex.node t) = true then
      wakeLoop b wanted result n left next (k.wakeWaiter b t result)
    else wakeLoop b wanted result n (left + 1) next k

/-- `futex_wake`: the number of threads woken. -/
def futexWake (k : Kernel β) (p : ProcId) (uaddr : UInt64) (count : Nat) : Nat × Kernel β :=
  let index := futexHash (k.proc p).address uaddr
  let (left, k) := wakeLoop index (fun w => w.process == some p && w.uaddr == uaddr) 0 k.nextTid
    count (k.futex.head index) k
  (count - left, k)

def futexCancelThread (k : Kernel β) (t : Tid) (result : Int) : Kernel β :=
  if (k.futex.node t).waiting = true then k.wakeWaiter (k.futex.node t).bucket t result else k

def futexCancelProcess (k : Kernel β) (p : ProcId) (result : Int) : Kernel β :=
  (List.range futexBucketCount).foldl
    (fun k i => (wakeLoop i (fun w => w.process == some p) result k.nextTid k.nextTid
      (k.futex.head i) k).2) k

end Kernel

end OrangeOs.Proc
