import OrangeOs.Sched.LifeCalls

/-! # The life of every thread

The calls that make threads keep `Safe` too, so it holds after every step of every run: whatever
the order of exits, joins, detaches and reaping, each page of a thread is given back once, one call
claims a thread, and a join delivers the status of its exit.
-/

namespace OrangeOs.Sched

open List

open Proc (ProcId kernelProcess)
open Ipc (Tid)

namespace System

variable {s : System} {others : List Tid} {t u : Tid} {p : ProcId} {page : Page}

/-! ## New threads -/

theorem Kept.threadAlloc (h : Kept s) (hformed : Formed s others) (hlive : Live s)
    (hp : p < s.nextProc) (hrun : (s.proc p).state = .running) :
    Kept (s.threadAllocForProcess p) := by
  have hnew := threadAlloc_self s p
  have hother := fun u => threadAlloc_of_ne (t := u) s p
  have hprocess : ∀ u, (s.threadAllocForProcess p).process u =
      if u = s.nextTid then some p else s.process u := by
    intro u
    split
    next heq => rw [heq, process, hnew]; rfl
    next hne => rw [process, hother u hne, process]
  have hunused : s.process s.nextTid = none := by
    by_contra hne
    exact Nat.lt_irrefl _ (hformed.fresh s.nextTid hne)
  have hnobody : ∀ j, (s.thread j).joining ≠ some s.nextTid := by
    intro j hj
    obtain ⟨-, q, -, hq, -⟩ := hlive.awaited j s.nextTid hj
    rw [hunused] at hq
    cases hq
  have hproc : ∀ q, (s.threadAllocForProcess p).proc q =
      if q = p then linkThread s.nextTid (s.proc p) else s.proc q := fun q => modifyProc_proc ..
  have hlog : (s.threadAllocForProcess p).log =
    [Event.alloc s.nextTid .kernelStack, Event.alloc s.nextTid .object] ++ s.log := rfl
  refine h.frame (h.pages.threadAlloc hformed.fresh p) ?_ hlog (by simp [Event.quiet])
    (Nat.le_succ _) ⟨fun j u hj => ?_, fun u hu => ?_⟩
    ⟨fun u q hu hq hstate => ?_, fun u hz hd => ?_⟩
  · refine .of_fine (fun u q => ?_) (fun q => ?_) (fun u q hu => ?_) ?_ h.links.booted
    · rw [hproc, hprocess]
      rcases eq_or_ne u s.nextTid with rfl | hu
      · rw [if_pos rfl]
        split
        next hq => simp [linkThread, hq]
        next hq =>
          have hnot : s.nextTid ∉ (s.proc q).threads := fun hmem => by
            rw [h.links.linked, hunused] at hmem
            cases hmem
          simp [hnot, Ne.symm hq]
      · rw [if_neg hu]
        split
        next hq =>
          rw [hq]
          simp only [linkThread, mem_cons, hu, false_or]
          exact h.links.linked u p
        · exact h.links.linked u q
    · rw [hproc]
      split
      · refine ⟨nodup_cons.mpr ⟨fun hmem => ?_, h.links.distinct p⟩, absurd hrun⟩
        rw [h.links.linked, hunused] at hmem
        cases hmem
      · exact h.links.fine q
    · rw [hprocess] at hu
      split at hu
      · exact Option.some.inj hu ▸ hp
      · exact h.links.young u q hu
    · rw [hproc]
      split
      · exact hrun
      · exact h.links.kernel
  · rcases eq_or_ne j s.nextTid with rfl | hne
    · rw [hnew] at hj
      cases hj
    · rw [hother j hne] at hj
      exact hj
  · rcases eq_or_ne u s.nextTid with rfl | hne
    · exact ⟨h.claims.unused _ (Nat.le_refl _), hnobody⟩
    · rw [hother u hne] at hu
      exact h.claims.unclaimed u hu
  · rcases eq_or_ne u s.nextTid with rfl | hne
    · rw [hnew] at hu
      cases hu
    · rw [hprocess, if_neg hne] at hq
      rw [hother u hne] at hu ⊢
      rw [hproc] at hstate
      split at hstate
      next heq => exact ⟨hu, hq, heq ▸ hrun, rfl⟩
      · exact ⟨hu, hq, hstate, rfl⟩
  · rcases eq_or_ne u s.nextTid with rfl | hne
    · exact h.exits.unused _ (Nat.le_refl _)
    · rw [hother u hne] at hz hd
      exact h.exits.unexited u hz hd

theorem Live.threadAlloc (h : Live s) (hformed : Formed s others) (p : ProcId) :
    Live (s.threadAllocForProcess p) := by
  have hother : ∀ u q, s.process u = some q →
      (s.threadAllocForProcess p).thread u = s.thread u := fun u q hu =>
    modify_of_ne s (fun _ => newThread p)
      (Nat.ne_of_lt (hformed.fresh u (by rw [hu]; exact nofun)))
  constructor
  case space =>
    intro q
    show ((s.modifyProc p (linkThread s.nextTid)).proc q).state = .running → _
    rw [modifyProc_proc]
    show _ → ((s.modifyProc p (linkThread s.nextTid)).proc q).cr3 = true
    rw [modifyProc_proc]
    split
    next heq => exact h.space p
    · exact h.space q
  case awaited =>
    intro j t hj
    rcases eq_or_ne j s.nextTid with rfl | hne
    · rw [threadAlloc_self] at hj
      cases hj
    · have hold : (s.threadAllocForProcess p).thread j = s.thread j :=
        modify_of_ne s (fun _ => newThread p) hne
      rw [hold] at hj
      obtain ⟨hjt, q, hjq, htq, hlife⟩ := h.awaited j t hj
      refine ⟨hjt, q, ?_, ?_, ?_⟩
      · rw [process, hold]; exact hjq
      · rw [process, hother t q htq]; exact htq
      · rw [hother t q htq]; exact hlife

theorem Safe.threadAlloc (h : Safe s) (hp : p < s.nextProc) (hrun : (s.proc p).state = .running) :
    Safe (s.threadAllocForProcess p) := by
  obtain ⟨others, hformed⟩ := h.formed
  exact ⟨⟨others, hformed.threadAllocForProcess p⟩, h.kept.threadAlloc hformed h.live hp hrun,
    h.live.threadAlloc hformed p⟩

theorem Safe.allocProcess (h : Safe s) : Safe s.allocProcess := by
  obtain ⟨others, hformed⟩ := h.formed
  have hother : ∀ q, q ≠ s.nextProc → s.allocProcess.proc q = s.proc q := fun q hq =>
    modifyProc_of_ne s (fun _ => newProcess (s.process s.current)) hq
  have hself : s.allocProcess.proc s.nextProc = newProcess (s.process s.current) :=
    modifyProc_self s s.nextProc fun _ => newProcess (s.process s.current)
  have hknown : ∀ t q, s.process t = some q → q ≠ s.nextProc := fun t q ht =>
    Nat.ne_of_lt (h.kept.links.young t q ht)
  have hkept : Kept s.allocProcess := by
    refine h.kept.frame ?_ ?_ (nil_append _).symm (forall_mem_nil _) (Nat.le_refl _)
      ⟨fun _ _ hj => hj, h.kept.claims.unclaimed⟩
      ⟨fun t q ht hq hrun => ?_, h.kept.exits.unexited⟩
    · have hp := h.kept.pages
      refine { hp with mapping m hm := ?_, whole t q page ht hc := ?_ }
      · have hmap := hp.mapping m hm
        rw [hother _ (hknown _ _ hmap.1)]
        exact hmap
      · rw [hother _ (hknown _ _ ht)] at hc
        exact hp.whole t q page ht hc
    · have hl := h.kept.links
      refine .of_fine (fun t q => ?_) (fun q => ?_)
        (fun t q ht => Nat.lt_succ_of_lt (hl.young t q ht)) ?_ (Nat.lt_succ_of_lt hl.booted)
      · rcases eq_or_ne q s.nextProc with rfl | hq
        · rw [hself]
          exact iff_of_false nofun fun ht => hknown t _ ht rfl
        · rw [hother q hq]
          exact hl.linked t q
      · rcases eq_or_ne q s.nextProc with rfl | hq
        · rw [hself]
          exact ⟨nodup_nil, absurd rfl⟩
        · rw [hother q hq]
          exact hl.fine q
      · rw [hother kernelProcess (Nat.ne_of_lt hl.booted)]
        exact hl.kernel
    · rw [hother q (hknown t q hq)] at hrun
      exact ⟨ht, hq, hrun, rfl⟩
  refine ⟨⟨others, hformed.frame rfl rfl rfl fun _ => Iff.rfl⟩, hkept, fun q => ?_,
    h.live.awaited⟩
  rcases eq_or_ne q s.nextProc with rfl | hq
  · rw [hself]; exact fun _ => rfl
  · rw [hother q hq]; exact h.live.space q

/-- Nothing but the fields for its pages changes in a thread. -/
structure OnlyPages (r r' : Thread) : Prop where
  next : r'.next = r.next
  status : r'.status = r.status
  process : r'.process = r.process
  lifecycle : r'.lifecycle = r.lifecycle
  lifecycleClaimed : r'.lifecycleClaimed = r.lifecycleClaimed
  exitStatus : r'.exitStatus = r.exitStatus
  joining : r'.joining = r.joining

theorem Safe.mapPage (h : Safe s) {f : Thread → Thread} (hpage : page.user = true)
    (hprocess : s.process t = some p) (hrun : (s.proc p).state = .running) (hp : p ≠ kernelProcess)
    (hnone : s.allocs t page = 0) (hf : OnlyPages (s.thread t) (f (s.thread t)))
    (hhas : ∀ pg, (f (s.thread t)).has pg = (decide (pg = page) || (s.thread t).has pg)) :
    Safe ((s.mapUserPage p t page).modify t f) := by
  obtain ⟨others, hformed⟩ := h.formed
  have honly : ∀ u, OnlyPages (s.thread u) (((s.mapUserPage p t page).modify t f).thread u) := by
    intro u
    rw [modify_thread]
    split
    next heq => exact heq ▸ hf
    · exact ⟨rfl, rfl, rfl, rfl, rfl, rfl, rfl⟩
  have hlog : ((s.mapUserPage p t page).modify t f).log = [.alloc t page] ++ s.log := rfl
  have htid : t < s.nextTid := hformed.fresh t (by simp [hprocess])
  have hring : Formed ((s.mapUserPage p t page).modify t f) others := by
    refine (hformed.mapUserPage p t page).modify_plain ?_ ?_ ?_
    · exact hf.next
    · exact hf.process
    · exact hf.status
  refine ⟨⟨others, hring⟩, ?_, ?_⟩
  · refine h.kept.frame ?_ ?_ hlog (by simp [Event.quiet]) (Nat.le_refl _)
      ⟨fun j _ => (honly j).joining.symm.trans, fun u hu => ?_⟩
      ⟨fun u q hu hq hstate => ?_, fun u hz hd => ?_⟩
    · exact h.kept.pages.mapPage hpage hprocess (h.live.space p hrun) hp hnone htid hf.process hhas
    · exact h.kept.links.keep (fun u => (honly u).process) (fun _ => ⟨rfl, rfl, id⟩) rfl
    · exact h.kept.claims.unclaimed u ((honly u).lifecycleClaimed.symm.trans hu)
    · rw [(honly u).status] at hu
      exact ⟨hu, (honly u).process.symm.trans hq, hstate, (honly u).exitStatus⟩
    · rw [(honly u).status] at hz hd
      exact h.kept.exits.unexited u hz hd
  · refine h.live.frame (fun u => (honly u).joining) (fun u => (honly u).process)
      (fun _ hq => ⟨hq, rfl⟩) fun _ u _ hlife => ?_
    rw [(honly u).lifecycle]
    exact hlife

theorem Safe.allocateUserThreadStack (h : Safe s) (hprocess : s.process t = some p)
    (hrun : (s.proc p).state = .running) (hp : p ≠ kernelProcess)
    (hnone : s.allocs t .userStack = 0) : Safe (s.allocateUserThreadStack p t) :=
  h.mapPage rfl hprocess hrun hp hnone ⟨rfl, rfl, rfl, rfl, rfl, rfl, rfl⟩ fun pg => by
    cases pg <;> simp [Thread.has]

theorem Safe.processAllocateThreadTls (h : Safe s) (hprocess : s.process t = some p)
    (hrun : (s.proc p).state = .running) (hp : p ≠ kernelProcess)
    (hnone : s.allocs t .tls = 0) : Safe (s.processAllocateThreadTls p t) :=
  h.mapPage rfl hprocess hrun hp hnone ⟨rfl, rfl, rfl, rfl, rfl, rfl, rfl⟩ fun pg => by
    cases pg <;> simp [Thread.has]

/-- The new thread of a running user process, before it has pages in the user's half. -/
structure Fresh (s : System) (p : ProcId) (t : Tid) : Prop where
  safe : Safe s
  process : s.process t = some p
  state : (s.proc p).state = .running
  user : p ≠ kernelProcess
  bare : ∀ page, page.user = true → s.allocs t page = 0

theorem Safe.freshThread (h : Safe s) (hp : p < s.nextProc) (hrun : (s.proc p).state = .running)
    (huser : p ≠ kernelProcess) : Fresh (s.threadAllocForProcess p) p s.nextTid := by
  refine ⟨h.threadAlloc hp hrun, ?_, ?_, huser, fun page hpage => ?_⟩
  · rw [process, threadAlloc_self]
    rfl
  · show ((s.modifyProc p (linkThread s.nextTid)).proc p).state = .running
    rw [modifyProc_self]
    exact hrun
  · rw [threadAlloc_allocs, h.kept.pages.unused _ _ (Nat.le_refl _), if_neg]
    rw [hpage]
    exact fun hcond => Bool.noConfusion hcond.2

theorem Safe.startProcess (h : Safe s) : Fresh s.startProcess s.nextProc s.nextTid := by
  refine h.allocProcess.freshThread (Nat.lt_succ_self _) ?_ (Nat.ne_of_gt h.kept.links.booted)
  have hself : s.allocProcess.proc s.nextProc = newProcess (s.process s.current) :=
    modifyProc_self s s.nextProc fun _ => newProcess (s.process s.current)
  rw [hself]
  rfl

theorem Fresh.stack (h : Fresh s p t) : Safe (s.allocateUserThreadStack p t) :=
  h.safe.allocateUserThreadStack h.process h.state h.user (h.bare _ rfl)

theorem Fresh.tls (h : Fresh s p t) : Safe (s.processAllocateThreadTls p t) :=
  h.safe.processAllocateThreadTls h.process h.state h.user (h.bare _ rfl)

theorem Fresh.both_process (h : Fresh s p t) :
    ((s.allocateUserThreadStack p t).processAllocateThreadTls p t).process t = some p := by
  have hstack : ((s.allocateUserThreadStack p t).thread t).process = some p := by
    show ((System.modify _ t _).thread t).process = some p
    rw [modify_self]
    exact h.process
  show ((System.modify _ t _).thread t).process = some p
  rw [modify_self]
  exact hstack

theorem Fresh.both (h : Fresh s p t) :
    Safe ((s.allocateUserThreadStack p t).processAllocateThreadTls p t) := by
  refine h.stack.processAllocateThreadTls ?_ h.state h.user ?_
  · show ((System.modify _ t _).thread t).process = some p
    rw [modify_self]
    exact h.process
  · show (System.modify _ t _).allocs t .tls = 0
    rw [mapPage_allocs, h.bare _ rfl, if_neg nofun]

/-! ## Calls -/

theorem Safe.processFork (h : Safe s) : Safe s.processFork := by
  unfold System.processFork
  split
  case h_1 => exact h
  case h_2 p hp =>
    split
    · exact h
    · have hfresh := h.startProcess
      exact hfresh.safe.threadAppend (by rw [hfresh.process]; exact nofun)

theorem Safe.processCreateThread (h : Safe s) : Safe s.processCreateThread := by
  unfold System.processCreateThread
  split
  case h_1 => exact h
  case h_2 p hp =>
    split
    · exact h
    next hcond =>
      obtain ⟨huser, hrest⟩ := not_or.mp hcond
      have hrun : (s.proc p).state = .running := not_not.mp (not_or.mp hrest).1
      have hfresh := h.freshThread (h.kept.links.young _ p hp) hrun huser
      exact hfresh.both.threadAppend (by rw [hfresh.both_process]; exact nofun)

theorem Safe.call (h : Safe s) (hgoing : Going (s.thread s.current).status)
    (hjoining : (s.thread s.current).joining = none) (c : Call) : Ends (s.call c) := by
  cases c with
  | threadCreate => exact (h.threadAlloc h.kept.links.booted h.kept.links.kernel).ends
  | processCreate => exact h.startProcess.both.ends
  | processCreateLoaded => exact h.startProcess.tls.ends
  | processFork => exact h.processFork.ends
  | processCreateThread => exact h.processCreateThread.ends
  | append t =>
    show Ends (.ok (if (s.process t).isSome then s.threadAppend t else s))
    split
    next hsome => exact (h.threadAppend (Option.isSome_iff_ne_none.mp hsome)).ends
    · exact h.ends
  | block => exact (h.threadBlock hgoing).ends
  | threadExit status => exact h.threadExitWithStatus hgoing hjoining status
  | processExit status => exact h.processExit hgoing hjoining status
  | join t => exact h.threadJoin hgoing t
  | detach t => exact h.threadDetach t
  | wait p =>
    show Ends (s.processWait p)
    unfold System.processWait
    split
    · exact h.reapProcess p
    · exact h.ends

/-- No assertion but those of `schedule` can fail. -/
theorem Safe.ends_step (h : Safe s) {op : Op} (hop : op ≠ .schedule) : Ends (s.step op) := by
  cases op with
  | schedule => exact absurd rfl hop
  | unblock t => exact (h.threadUnblock t).ends
  | terminate p => exact (h.requestProcessTermination p).ends
  | resume =>
    show Ends (if s.runs then s.resume else .ok s)
    split
    next hruns => exact h.resume (going_of_runs hruns)
    · exact h.ends
  | call c =>
    show Ends (if s.runs ∧ (s.thread s.current).joining = none then s.call c else .ok s)
    split
    next hruns => exact h.call (going_of_runs hruns.1) hruns.2 c
    · exact h.ends

theorem Safe.step (h : Safe s) (op : Op) : Safe (endState (s.step op)) := by
  rcases eq_or_ne op .schedule with rfl | hop
  · exact h.schedule
  · exact (h.ends_step hop).safe

/-! ## Runs -/

theorem boot_thread_of_ne (h : t ≠ 0) : boot.thread t = noThread := if_neg h

theorem boot_proc_of_ne (h : p ≠ kernelProcess) : boot.proc p = noProcess := if_neg h

theorem boot_process (t : Tid) : boot.process t = if t = 0 then some kernelProcess else none := by
  split
  next heq =>
    rw [heq]
    rfl
  next hne =>
    rw [process, boot_thread_of_ne hne]
    rfl

theorem boot_joining (t : Tid) : (boot.thread t).joining = none := by
  rcases eq_or_ne t 0 with rfl | hne
  · rfl
  · rw [boot_thread_of_ne hne]
    rfl

theorem boot_frees (t : Tid) (page : Page) : boot.frees t page = 0 := rfl

theorem boot_allocs (t : Tid) (page : Page) :
    boot.allocs t page = if t = 0 ∧ page = .object then 1 else 0 := by
  rcases eq_or_ne t 0 with rfl | hne
  · cases page <;> rfl
  · have hnot : ∀ page, Event.alloc 0 .object ≠ .alloc t page :=
      fun _ heq => hne (Event.alloc.inj heq).1.symm
    rw [if_neg fun hcond => hne hcond.1]
    simp [System.allocs, boot, hnot]

theorem boot_held (t : Tid) (page : Page) :
    boot.held t page = if t = 0 ∧ page = .object then 1 else 0 := by
  rcases eq_or_ne t 0 with rfl | hne
  · cases page <;> rfl
  · cases page <;> simp [System.held, hne, noThread, boot, Thread.has]

theorem boot_pages : Pages boot := by
  constructor
  case balanced => intro t page; rw [boot_frees, boot_held, boot_allocs, Nat.zero_add]
  case once =>
    intro t page
    rw [boot_allocs]
    split <;> decide
  case unused =>
    intro t page ht
    rw [boot_allocs, if_neg fun hcond => Nat.ne_of_gt ht hcond.1]
  case gone =>
    intro t page ht
    rw [boot_process] at ht
    rw [boot_held, if_neg]
    rintro ⟨rfl, -⟩
    cases ht
  case mapping => exact nofun
  case whole => exact fun t p page _ _ => boot_frees t page
  case apart =>
    intro t page c r hmem
    simp [boot] at hmem

theorem boot_links : Links boot := by
  refine .of_fine (fun t p => ?_) (fun p => ?_) (fun t p ht => ?_) rfl Nat.one_pos
  · rw [boot_process]
    rcases eq_or_ne p kernelProcess with rfl | hne
    · simp [boot, bootProcess]
    · simp [boot_proc_of_ne hne, noProcess, newProcess, Ne.symm hne]
  · rcases eq_or_ne p kernelProcess with rfl | hne
    · exact ⟨nodup_singleton 0, absurd rfl⟩
    · rw [boot_proc_of_ne hne]
      exact ⟨nodup_nil, fun _ => ⟨Nat.zero_le 1, rfl⟩⟩
  · rw [boot_process] at ht
    split at ht
    · cases ht
      exact Nat.one_pos
    · cases ht

theorem safe_boot : Safe boot := by
  refine ⟨⟨[], formed_boot⟩, ⟨boot_pages, boot_links, ?_, ?_, ?_⟩, ?_⟩
  · constructor
    case unclaimed => exact fun t _ => ⟨rfl, fun j hj => by rw [boot_joining] at hj; cases hj⟩
    case once => exact fun t => Nat.zero_le 1
    case waiting => exact fun j t hj => by rw [boot_joining] at hj; cases hj
    case unused => exact fun t _ => rfl
  · constructor
    case zombie =>
      intro t p hz
      rcases eq_or_ne t 0 with rfl | hne
      · cases hz
      · rw [boot_thread_of_ne hne] at hz
        cases hz
    case once => exact fun t => Nat.zero_le 1
    case unexited => exact fun t _ _ => rfl
    case unused => exact fun t _ => rfl
  · have hnil : Ordered [] := fun later _ _ _ heq => by cases later <;> cases heq
    exact (hnil.cons (e := .alloc 0 .object) fun _ _ => nofun).cons fun _ _ => nofun
  · refine ⟨fun p hp => ?_, fun j t hj => by rw [boot_joining] at hj; cases hj⟩
    rcases eq_or_ne p kernelProcess with rfl | hne
    · rfl
    · rw [boot_proc_of_ne hne] at hp
      cases hp

theorem safe_run (ops : List Op) : Safe (endState (run ops)) := by
  have hadvance : ∀ e op, Safe (endState e) → Safe (endState (advance e op)) := by
    intro e op h
    cases e with
    | error => exact h
    | ok s => exact h.step op
  have hruns : ∀ e, Safe (endState e) → Safe (endState (ops.foldl advance e)) := by
    induction ops with
    | nil => exact fun e h => h
    | cons op ops ih => exact fun e h => ih (advance e op) (hadvance e op h)
  exact hruns (.ok boot) safe_boot

/-! ## Lives -/

/-- One claimant, one exit and one release for each thread of the log. -/
structure LivesOnce (s : System) : Prop where
  /-- At most one `thread_join` or `thread_detach` returns 0. -/
  claimed : ∀ t, s.claims t ≤ 1
  exited : ∀ t, s.exits t ≤ 1
  /-- A join delivers the status the thread exited with, and reads it before any page is freed. -/
  delivered : Ordered s.log
  allocated : ∀ t page, s.allocs t page ≤ 1
  balanced : ∀ t page, s.frees t page + s.held t page = s.allocs t page
  released : ∀ t page, s.process t = none → s.frees t page = s.allocs t page
  /-- Pages are freed when the thread is neither current nor in the ring, but for the pages of the
  user's half that the thread gives back itself in `process_exit`. -/
  apart : ∀ t page current inRing, .free t page current inRing ∈ s.log →
    (current = false ∧ inRing = false) ∨ (page.user = true ∧ .processExit t ∈ s.log)
  awaited : ∀ j t page, (s.thread j).joining = some t → s.frees t page = 0

theorem Safe.livesOnce (h : Safe s) : LivesOnce s := by
  have hpages := h.kept.pages
  refine ⟨h.kept.claims.once, h.kept.exits.once, h.kept.ordered, hpages.once, hpages.balanced,
    fun t page ht => ?_, hpages.apart, fun j t page hj => ?_⟩
  · rw [← hpages.balanced, hpages.gone t page ht, Nat.add_zero]
  · obtain ⟨hne, p, hj', ht, -⟩ := h.live.awaited j t hj
    have hrun := h.kept.running_of_two hne.symm ht hj'
    exact hpages.whole t p page ht fun _ => h.live.space p hrun

/-- In every run, whatever its interleaving, each thread is claimed, ends and is released once. -/
theorem threads_live_once (ops : List Op) : LivesOnce (endState (run ops)) :=
  (safe_run ops).livesOnce

/-- The last thread of a process gives its TLS page back while it is current and in the ring. -/
theorem process_exit_frees_current_tls :
    ∃ s, run [.call .processCreate, .call (.append 1), .schedule, .call (.processExit 0)] = .ok s ∧
      .free 1 .tls true true ∈ s.log :=
  ⟨_, rfl, by decide⟩

end System

end OrangeOs.Sched
