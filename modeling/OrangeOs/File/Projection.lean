import OrangeOs.File.OpenCalls

/-! # The tables without the volume

`System` has the calls of `State` together with the volume. What its steps do to the tables, the
steps of `State` do without a volume.
-/

namespace OrangeOs.File

open Function List
open Ipc (Tid)

/-- The tables after a step, or after the end of an OPEN that was answered in an earlier one. -/
inductive TableStep (s : State) : State → Prop
  | same : TableStep s s
  | call (op : Op) : TableStep s (apply s op)
  | opened (p : ProcId) (created : Bool) : TableStep s (s.sysOpen p true created)

namespace System

variable {s : System} {t : Tid}

@[simp] theorem fileRelease_tables (s : System) (f : FileId) :
    (s.fileRelease f).tables = s.tables.fileRelease f := by
  unfold fileRelease
  split <;> rfl

/-- A call on a regular file is over at once. -/
theorem enter_tables {p : ProcId} {fd : Nat} {tables : State} {c : Call}
    (hc : s.tables.call t = none) (hget : s.tables.getFileObject p fd = (tables, some c.file))
    (hf : tables.Regular c.file) : tables.enter t c = tables.fileRelease c.file := by
  obtain ⟨n, hn⟩ := hf
  have hcall : update (update tables.call t (some c)) t none = tables.call := by
    rw [(getFileObject_eq_some hget).2, (s.tables.fileRetain_tables c.file).2.2.1, update_idem, ← hc,
      update_eq_self]
  unfold State.enter State.round State.leave
  simp only [update_self, hcall]
  cases c with
  | read f length | write f length =>
    simp only [Call.file] at hn
    simp only [hn, Option.map_some, Call.file]

theorem sysRead_tables (hc : s.tables.call t = none) (p : ProcId) (fd length : Nat)
    (writable staging : Bool) : (s.sysRead t p fd length writable staging).1.tables =
      s.tables.sysRead t p fd length writable staging := by
  unfold sysRead State.sysRead
  split
  · rfl
  rcases hget : s.tables.getFileObject p fd with ⟨tables, _ | f⟩
  · rfl
  dsimp only
  split
  · rfl
  split
  · next i hi =>
    rw [enter_tables (c := .read f length) hc hget (inodeOf_eq_some.mp hi).1]
    unfold fileRead
    split <;> exact fileRelease_tables _ f
  · rfl

theorem sysWrite_tables (hc : s.tables.call t = none) (p : ProcId) (fd : Nat) (data : List UInt8)
    (staging copied : Bool) : (s.sysWrite t p fd data staging copied).tables =
      s.tables.sysWrite t p fd data.length staging copied := by
  unfold sysWrite State.sysWrite
  split
  · rfl
  rcases hget : s.tables.getFileObject p fd with ⟨tables, _ | f⟩
  · rfl
  dsimp only
  split
  · exact fileRelease_tables _ f
  split
  · next i hi =>
    rw [enter_tables (c := .write f data.length) hc hget (inodeOf_eq_some.mp hi).1]
    unfold fileWrite
    split <;> exact fileRelease_tables _ f
  · rfl

theorem openFinish_tables (s : System) (t : Tid) (p : ProcId) (created : Bool) :
    TableStep s.tables (s.openFinish t p created).tables := by
  have hopen := TableStep.opened (s := s.tables) p created
  unfold State.sysOpen at hopen
  unfold openFinish
  split
  · exact .same
  cases created with
  | false => exact .same
  | true =>
    simp only [Bool.true_eq_false, or_self, if_false] at hopen ⊢
    split <;> simp_all

theorem processCloseFiles_tables (s : System) (p : ProcId) :
    (s.processCloseFiles p).tables = s.tables.processCloseFiles p :=
  (foldl_hom tables fun s f => (fileRelease_tables s f).symm).symm

theorem processExit_tables (s : System) (t : Tid) (p : ProcId) :
    (s.processExit t p).tables = s.tables.processExit t p := by
  unfold processExit State.processExit
  dsimp only
  rw [processCloseFiles_tables]

theorem asUser_tables {act : ProcId → System} {act' : ProcId → State} (op : File.Op)
    (hop : apply s.tables op = s.tables.asUser t act')
    (hact : ∀ p, s.tables.call t = none → (act p).tables = act' p) :
    TableStep s.tables (s.asUser t act).tables := by
  unfold asUser
  split
  · next p hp hc _ =>
    have hcall := TableStep.call (s := s.tables) op
    rw [hop, State.asUser, hp, hc] at hcall
    rw [hact p hc]
    exact hcall
  · exact .same

theorem step_tables (s : System) (op : Op) : TableStep s.tables (s.step op).tables := by
  cases op with
  | spawn => exact .call .spawn
  | createThread t =>
    dsimp only [step, asUser]
    split
    · exact .call (.createThread t)
    · exact .same
  | openFinish t created =>
    dsimp only [step]
    split
    · exact .same
    · exact openFinish_tables s t _ created
  | read t fd length w m =>
    exact asUser_tables (.read t fd length w m) rfl fun p hc => sysRead_tables hc p fd length w m
  | write t fd data m c =>
    exact asUser_tables (.write t fd data.length m c) rfl fun p hc => sysWrite_tables hc p fd data m c
  | resume t =>
    dsimp only [step, resume]
    split
    · exact .same
    · exact .call (.resume t)
  | close t fd =>
    refine asUser_tables (.close t fd) rfl fun p _ => ?_
    unfold sysClose State.sysClose
    split <;> simp_all
  | dup t fd =>
    refine asUser_tables (.dup t fd) rfl fun p _ => ?_
    unfold sysDup State.sysDup
    repeat' split
    all_goals simp_all
  | dup2 t fd newfd =>
    refine asUser_tables (.dup2 t fd newfd) rfl fun p _ => ?_
    unfold sysDup2 State.sysDup2
    repeat' split
    all_goals simp_all
  | pipe t w p r q c => exact asUser_tables (.pipe t w p r q c) rfl fun _ _ => rfl
  | fork t cloned thread =>
    refine asUser_tables (.fork t cloned thread) rfl fun p _ => ?_
    unfold processFork State.processFork
    repeat' split
    all_goals first | rfl | exact processCloseFiles_tables _ _
  | exit t => exact asUser_tables (.exit t) rfl fun p _ => processExit_tables s t p
  | kill t q =>
    refine asUser_tables (.kill t q) rfl fun p _ => ?_
    unfold sysKill State.sysKill
    split
    · exact processExit_tables s t p
    · rfl
  | notice t =>
    refine asUser_tables (.notice t) rfl fun p _ => ?_
    split
    · exact processExit_tables s t p
    · rfl
  | openRequest =>
    dsimp only [step, asUser, openRequest]
    repeat' split
    all_goals exact .same
  | unlink | mkdir =>
    dsimp only [step, asUser]
    split <;> exact .same

/-- What is reached with the volume is reached without it. -/
theorem run_tables (s : System) (ops : List Op) :
    Relation.ReflTransGen TableStep s.tables (s.run ops).tables := by
  induction ops generalizing s with
  | nil => exact .refl
  | cons op ops ih => exact .head (s.step_tables op) (ih (s.step op))

end System

end OrangeOs.File
