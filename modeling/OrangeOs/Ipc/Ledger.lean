import OrangeOs.Ipc.Rendezvous

/-! # The account of messages

What message passing is for, without queues and fields: every call of `ipc_send` is
entered in a log, and so are its result and the messages that calls of
`ipc_receive` return. A thread is outside, in a call, or gone, and a call in
progress may already be decided. The moves below keep the log in order: a message
is returned at most once, and if and only if its sender is told so.
-/

namespace OrangeOs.Ipc

open Function List

variable {β : Type}

/-- A message body with the number of the call that sent it. -/
structure Tagged (β : Type) where
  id : Nat
  body : β

structure Call (β : Type) where
  id : Nat
  src : Tid
  dst : Tid
  pid : UInt32
  body : β

def Call.message (c : Call β) : Message (Tagged β) := ⟨c.pid, ⟨c.id, c.body⟩⟩

/-- A call of `ipc_receive` that returned 0. -/
structure Receipt (β : Type) where
  receiver : Tid
  filter : Int32
  message : Message (Tagged β)

structure Log (β : Type) where
  calls : List (Call β)
  results : List (Nat × Int)
  receipts : List (Receipt β)

/-- Where a thread is. A call waits from `entered` on; `out` is the result a sender
will return with, and `got` the call whose message a receiver has been given. -/
inductive Phase (β : Type) where
  | outside
  | sending (entered : Bool) (c : Call β) (out : Option Int)
  | receiving (entered : Bool) (filter : Int32) (got : Option (Call β))
  | gone

/-! ## The log -/

def Log.addCall (L : Log β) (c : Call β) : Log β := { L with calls := c :: L.calls }

def Log.addResult (L : Log β) (id : Nat) (r : Int) : Log β :=
  { L with results := (id, r) :: L.results }

def Log.addReceipt (L : Log β) (r : Receipt β) : Log β := { L with receipts := r :: L.receipts }

def Log.Received (L : Log β) (id : Nat) : Prop := ∃ r ∈ L.receipts, r.message.body.id = id

/-- A receipt is for a call to the receiver that its filter admits. -/
def Receipt.For (r : Receipt β) (c : Call β) : Prop :=
  r.message = c.message ∧ c.dst = r.receiver ∧ admits r.filter c.pid = true

structure Log.Ordered (L : Log β) : Prop where
  bound : ∀ {c}, c ∈ L.calls → c.id < L.calls.length
  unique : ∀ {c c'}, c ∈ L.calls → c' ∈ L.calls → c.id = c'.id → c = c'
  called : ∀ {i r}, (i, r) ∈ L.results → i < L.calls.length
  result : ∀ {i r r'}, (i, r) ∈ L.results → (i, r') ∈ L.results → r = r'
  failed : ∀ {i r}, (i, r) ∈ L.results → r ≠ 0 → ¬L.Received i
  genuine : ∀ {r}, r ∈ L.receipts → ∃ c ∈ L.calls, r.For c
  once : (L.receipts.map fun r => r.message.body.id).Nodup

variable {i : Nat} {c : Call β} {r : Int} {phase : Tid → Phase β} {t : Tid} {p : Phase β}

theorem Log.received_addReceipt {L : Log β} {r : Receipt β} :
    (L.addReceipt r).Received i ↔ r.message.body.id = i ∨ L.Received i := by
  simp [Log.Received, Log.addReceipt]

theorem Log.Ordered.received_other {L : Log β} {f : Int32} {x : Call β} (h : L.Ordered)
    (hc : c ∈ L.calls) (hx : x ∈ L.calls) (hne : x ≠ c) :
    (L.addReceipt ⟨t, f, c.message⟩).Received x.id ↔ L.Received x.id :=
  Log.received_addReceipt.trans (or_iff_right fun heq => hne (h.unique hx hc heq.symm))

theorem Log.Ordered.received_lt {L : Log β} (h : L.Ordered) (hi : L.Received i) :
    i < L.calls.length := by
  obtain ⟨r, hr, rfl⟩ := hi
  obtain ⟨c, hc, hfor, -⟩ := h.genuine hr
  rw [hfor]
  exact h.bound hc

theorem Log.Ordered.addCall {L : Log β} (h : L.Ordered) (hc : c.id = L.calls.length) :
    (L.addCall c).Ordered := by
  have hlen : (L.addCall c).calls.length = L.calls.length + 1 := rfl
  have hne : ∀ {x}, x ∈ L.calls → x.id ≠ c.id := fun hx heq => by
    have := h.bound hx
    omega
  refine ⟨?_, ?_, ?_, h.result, h.failed, ?_, h.once⟩
  · intro x hx
    rcases mem_cons.mp hx with rfl | hx
    · omega
    · have := h.bound hx
      omega
  · intro x y hx hy heq
    rcases mem_cons.mp hx with hxc | hxL
    · rcases mem_cons.mp hy with hyc | hyL
      · rw [hxc, hyc]
      · exact absurd (by rw [← heq, hxc]) (hne hyL)
    · rcases mem_cons.mp hy with hyc | hyL
      · exact absurd (by rw [heq, hyc]) (hne hxL)
      · exact h.unique hxL hyL heq
  · intro i r hi
    have := h.called hi
    omega
  · intro r hr
    obtain ⟨x, hx, hfor⟩ := h.genuine hr
    exact ⟨x, mem_cons_of_mem _ hx, hfor⟩

theorem Log.Ordered.addResult {L : Log β} (h : L.Ordered) (hi : i < L.calls.length)
    (hfirst : ∀ r', (i, r') ∉ L.results) (hfail : r ≠ 0 → ¬L.Received i) :
    (L.addResult i r).Ordered := by
  refine ⟨h.bound, h.unique, ?_, ?_, ?_, h.genuine, h.once⟩
  · intro j x hx
    rcases mem_cons.mp hx with heq | hx
    · cases heq
      exact hi
    · exact h.called hx
  · intro j x y hx hy
    rcases mem_cons.mp hx with heq | hx
    · cases heq
      rcases mem_cons.mp hy with heq | hy
      · cases heq
        rfl
      · exact absurd hy (hfirst y)
    · rcases mem_cons.mp hy with heq | hy
      · cases heq
        exact absurd hx (hfirst x)
      · exact h.result hx hy
  · intro j x hx hne
    rcases mem_cons.mp hx with heq | hx
    · cases heq
      exact hfail hne
    · exact h.failed hx hne

theorem Log.Ordered.addReceipt {L : Log β} (h : L.Ordered) {r : Receipt β} (hc : c ∈ L.calls)
    (hfor : r.For c) (hfirst : ¬L.Received c.id) (hgood : ∀ x, (c.id, x) ∈ L.results → x = 0) :
    (L.addReceipt r).Ordered := by
  have hid : r.message.body.id = c.id := by rw [hfor.1]; rfl
  refine ⟨h.bound, h.unique, h.called, h.result, ?_, ?_, ?_⟩
  · intro i x hx hne hrec
    rcases Log.received_addReceipt.mp hrec with heq | hrec
    · rw [← heq, hid] at hx
      exact hne (hgood x hx)
    · exact h.failed hx hne hrec
  · intro x hx
    rcases mem_cons.mp hx with rfl | hx
    · exact ⟨c, hc, hfor⟩
    · exact h.genuine hx
  · refine nodup_cons.mpr ⟨fun hmem => hfirst ?_, h.once⟩
    obtain ⟨x, hx, heq⟩ := mem_map.mp hmem
    exact ⟨x, hx, heq.trans hid⟩

/-! ## Moves -/

structure Ledger (β : Type) where
  phase : Tid → Phase β
  log : Log β

def Ledger.setPhase (L : Ledger β) (t : Tid) (p : Phase β) : Ledger β :=
  { L with phase := update L.phase t p }

/-- A thread that waits to be received from learns that its destination is gone. -/
def Phase.refuse (target : Tid) : Phase β → Phase β
  | .sending w c none => if c.dst = target then .sending w c (some (-1)) else .sending w c none
  | p => p

/-- What may happen, one step at a time. -/
inductive Move (L : Ledger β) : Ledger β → Prop
  | stay : Move L L
  /-- `ipc_send` fails at once. -/
  | reject (c : Call β) (r : Int) (id : c.id = L.log.calls.length) (error : r ≠ 0) :
      Move L { L with log := (L.log.addCall c).addResult c.id r }
  /-- `ipc_send` finds its destination waiting for it. -/
  | hand (c : Call β) (filter : Int32) (id : c.id = L.log.calls.length)
      (waiting : L.phase c.dst = .receiving true filter none)
      (admitted : admits filter c.pid = true) :
      Move L ({ L with log := (L.log.addCall c).addResult c.id 0 }.setPhase c.dst
        (.receiving true filter (some c)))
  /-- `ipc_send` has to wait. -/
  | queue (c : Call β) (id : c.id = L.log.calls.length) (src : L.phase c.src = .outside) :
      Move L ({ L with log := L.log.addCall c }.setPhase c.src (.sending false c none))
  /-- `ipc_receive` finds a sender waiting. -/
  | take (t u : Tid) (filter : Int32) (w : Bool) (c : Call β)
      (src : L.phase u = .sending w c none) (dst : c.dst = t)
      (admitted : admits filter c.pid = true) :
      Move L ({ L with log := L.log.addReceipt ⟨t, filter, c.message⟩ }.setPhase u
        (.sending w c (some 0)))
  /-- `ipc_receive` has to wait. -/
  | wait (t : Tid) (filter : Int32) (src : L.phase t = .outside) :
      Move L (L.setPhase t (.receiving false filter none))
  | blockSender (t : Tid) (c : Call β) (out : Option Int)
      (src : L.phase t = .sending false c out) : Move L (L.setPhase t (.sending true c out))
  | blockReceiver (t : Tid) (filter : Int32)
      (src : L.phase t = .receiving false filter none) :
      Move L (L.setPhase t (.receiving true filter none))
  /-- `ipc_send` returns after it has waited. -/
  | finishSend (t : Tid) (c : Call β) (r : Int) (src : L.phase t = .sending true c (some r)) :
      Move L ({ L with log := L.log.addResult c.id r }.setPhase t .outside)
  /-- `ipc_receive` returns after it has waited. -/
  | finishReceive (t : Tid) (filter : Int32) (c : Call β)
      (src : L.phase t = .receiving true filter (some c)) :
      Move L ({ L with log := L.log.addReceipt ⟨t, filter, c.message⟩ }.setPhase t .outside)
  /-- A thread is told to exit but goes on. -/
  | kill (t : Tid) : Move L { L with phase := fun u => (L.phase u).refuse t }
  /-- A thread ends by itself. -/
  | finish (t : Tid) : Move L (L.setPhase t .gone)
  /-- A thread exits. -/
  | exit (t : Tid) : Move L ({ L with phase := fun u => (L.phase u).refuse t }.setPhase t .gone)

/-- The log is in order, and the phases agree with it. -/
structure Accounted (L : Ledger β) : Prop where
  log : L.log.Ordered
  sending : ∀ {t w c out}, L.phase t = .sending w c out → c ∈ L.log.calls ∧ c.src = t ∧
    (∀ r, (c.id, r) ∉ L.log.results) ∧ (L.log.Received c.id ↔ out = some 0)
  handed : ∀ {t w f c}, L.phase t = .receiving w f (some c) → w = true ∧ c ∈ L.log.calls ∧
    c.dst = t ∧ (c.id, 0) ∈ L.log.results ∧ ¬L.log.Received c.id ∧ admits f c.pid = true
  delivered : ∀ {c}, c ∈ L.log.calls → (c.id, 0) ∈ L.log.results → L.log.Received c.id ∨
    (∃ f, L.phase c.dst = .receiving true f (some c)) ∨ L.phase c.dst = .gone

section Fresh

variable {L : Log β} (h : L.Ordered)
include h

theorem Log.Ordered.fresh_result (r : Int) : (L.calls.length, r) ∉ L.results := fun hr =>
  Nat.lt_irrefl _ (h.called hr)

theorem Log.Ordered.fresh_received : ¬L.Received L.calls.length := fun hr =>
  Nat.lt_irrefl _ (h.received_lt hr)

theorem Log.Ordered.fresh_ne (hc : c ∈ L.calls) : c.id ≠ L.calls.length :=
  Nat.ne_of_lt (h.bound hc)

end Fresh

theorem Accounted.init (h : ∀ t, phase t = .outside) : Accounted ⟨phase, ⟨[], [], []⟩⟩ := by
  refine ⟨⟨by simp, by simp, by simp, by simp, by simp, by simp, by simp⟩, ?_, ?_, by simp⟩
  · intro t w c out ht
    cases (h t).symm.trans ht
  · intro t w f c ht
    cases (h t).symm.trans ht

variable {L : Ledger β}

theorem Ledger.setPhase_cases {u : Tid} {q : Phase β} (h : (L.setPhase t p).phase u = q) :
    (u = t ∧ p = q) ∨ (u ≠ t ∧ L.phase u = q) := by
  by_cases hu : u = t
  · subst hu
    have h : update L.phase u p u = q := h
    rw [update_self] at h
    exact Or.inl ⟨rfl, h⟩
  · have h : update L.phase t p u = q := h
    rw [update_of_ne hu] at h
    exact Or.inr ⟨hu, h⟩

section Moves

variable (h : Accounted L)
include h

/-- What was sent is where it was when a thread that holds no message moves on. -/
theorem Accounted.delivered_aside (hc : c ∈ L.log.calls) (hr : (c.id, 0) ∈ L.log.results)
    (hold : ∀ w f c, L.phase t ≠ .receiving w f (some c)) (hgone : L.phase t ≠ .gone)
    (p : Phase β) : L.log.Received c.id ∨
      (∃ f, update L.phase t p c.dst = .receiving true f (some c)) ∨
      update L.phase t p c.dst = .gone := by
  rcases h.delivered hc hr with hrec | ⟨f, hf⟩ | hg
  · exact Or.inl hrec
  · refine Or.inr (Or.inl ⟨f, (update_of_ne ?_ _ _).trans hf⟩)
    rintro rfl
    exact hold _ _ _ hf
  · refine Or.inr (Or.inr ((update_of_ne ?_ _ _).trans hg))
    rintro rfl
    exact hgone hg

theorem Accounted.call (hid : c.id = L.log.calls.length) (hphase : ∀ t, phase t = L.phase t ∨
      ∃ f, t = c.dst ∧ L.phase t = .receiving true f none ∧
        phase t = .receiving true f (some c) ∧ admits f c.pid = true ∧ r = 0)
    (hzero : r = 0 → ∃ f, phase c.dst = .receiving true f (some c)) :
    Accounted ⟨phase, (L.log.addCall c).addResult c.id r⟩ := by
  have hlog := (h.log.addCall hid).addResult (i := c.id) (r := r)
    (by rw [hid]; exact Nat.lt_succ_self _)
    (fun r' => by rw [hid]; exact h.log.fresh_result r')
    (fun _ => by rw [hid]; exact h.log.fresh_received)
  refine ⟨hlog, ?_, ?_, ?_⟩
  · intro t w x out ht
    rcases hphase t with heq | ⟨f, -, -, heq, -⟩
    · obtain ⟨h1, h2, h3, h4⟩ := h.sending (heq.symm.trans ht)
      refine ⟨mem_cons_of_mem _ h1, h2, fun r' hr => ?_, h4⟩
      rcases mem_cons.mp hr with hr | hr
      · exact h.log.fresh_ne h1 ((congrArg Prod.fst hr).trans hid)
      · exact h3 r' hr
    · cases heq.symm.trans ht
  · intro t w f x ht
    rcases hphase t with heq | ⟨f', hdst, -, heq, hadm, hr⟩
    · obtain ⟨h1, h2, h3, h4, h5, h6⟩ := h.handed (heq.symm.trans ht)
      exact ⟨h1, mem_cons_of_mem _ h2, h3, mem_cons_of_mem _ h4, h5, h6⟩
    · cases heq.symm.trans ht
      refine ⟨rfl, mem_cons_self, hdst.symm, by rw [hr]; exact mem_cons_self, ?_, hadm⟩
      rw [hid]
      exact h.log.fresh_received
  · intro x hx hr
    rcases mem_cons.mp hx with rfl | hxL
    · rcases mem_cons.mp hr with heq | hr
      · exact Or.inr (Or.inl (hzero (congrArg Prod.snd heq).symm))
      · rw [hid] at hr
        exact absurd hr (h.log.fresh_result 0)
    · have hold : (x.id, 0) ∈ L.log.results := by
        rcases mem_cons.mp hr with heq | hr
        · exact absurd ((congrArg Prod.fst heq).trans hid) (h.log.fresh_ne hxL)
        · exact hr
      rcases h.delivered hxL hold with hrec | ⟨f, hf⟩ | hgone
      · exact Or.inl hrec
      · refine Or.inr (Or.inl ⟨f, ?_⟩)
        rcases hphase x.dst with heq | ⟨f', -, hnone, -⟩
        · exact heq.trans hf
        · cases hnone.symm.trans hf
      · refine Or.inr (Or.inr ?_)
        rcases hphase x.dst with heq | ⟨f', -, hnone, -⟩
        · exact heq.trans hgone
        · cases hnone.symm.trans hgone

theorem Accounted.phases (hsend : ∀ {t w c out}, phase t = .sending w c out →
      ∃ w' out', L.phase t = .sending w' c out' ∧ (out = some 0 ↔ out' = some 0))
    (hrecv : ∀ {t w f c}, phase t = .receiving w f (some c) →
      L.phase t = .receiving w f (some c))
    (hkeep : ∀ {t w f c}, L.phase t = .receiving w f (some c) →
      phase t = .receiving w f (some c) ∨ phase t = .gone)
    (hgone : ∀ {t}, L.phase t = .gone → phase t = .gone) : Accounted ⟨phase, L.log⟩ := by
  refine ⟨h.log, ?_, ?_, ?_⟩
  · intro t w c out ht
    obtain ⟨w', out', hold, hout⟩ := hsend ht
    rw [hout]
    exact h.sending hold
  · exact fun ht => h.handed (hrecv ht)
  · intro c hc hr
    rcases h.delivered hc hr with hrec | ⟨f, hf⟩ | hg
    · exact Or.inl hrec
    · exact Or.inr ((hkeep hf).imp (fun hk => ⟨f, hk⟩) id)
    · exact Or.inr (Or.inr (hgone hg))

theorem Accounted.take {u : Tid} {w : Bool} {filter : Int32} (hu : L.phase u = .sending w c none)
    (hadm : admits filter c.pid = true) :
    Accounted ({ L with log := L.log.addReceipt ⟨c.dst, filter, c.message⟩ }.setPhase u
      (.sending w c (some 0))) := by
  obtain ⟨hc, hsrc, hnores, hnot⟩ := h.sending hu
  have hnot : ¬L.log.Received c.id := by simpa using hnot
  refine ⟨h.log.addReceipt hc ⟨rfl, rfl, hadm⟩ hnot fun x hx => absurd hx (hnores x), ?_, ?_, ?_⟩
  · intro t w' x out ht
    rcases Ledger.setPhase_cases ht with ⟨rfl, hpq⟩ | ⟨htu, ht⟩
    · cases hpq
      exact ⟨hc, hsrc, hnores, fun _ => rfl, fun _ => Log.received_addReceipt.mpr (Or.inl rfl)⟩
    · obtain ⟨h1, h2, h3, h4⟩ := h.sending ht
      refine ⟨h1, h2, h3, (h.log.received_other hc h1 ?_).trans h4⟩
      rintro rfl
      exact htu (h2.symm.trans hsrc)
  · intro t w' f x ht
    rcases Ledger.setPhase_cases ht with ⟨-, hpq⟩ | ⟨-, ht⟩
    · cases hpq
    · obtain ⟨h1, h2, h3, h4, h5, h6⟩ := h.handed ht
      refine ⟨h1, h2, h3, h4, fun hrec => h5 ((h.log.received_other hc h2 ?_).mp hrec), h6⟩
      rintro rfl
      exact hnores 0 h4
  · intro x hx hr
    exact (h.delivered_aside hx hr (by simp [hu]) (by simp [hu]) _).imp_left fun hrec =>
      Log.received_addReceipt.mpr (Or.inr hrec)

theorem Accounted.finishSend (ht : L.phase t = .sending true c (some r)) :
    Accounted ({ L with log := L.log.addResult c.id r }.setPhase t .outside) := by
  obtain ⟨hc, hsrc, hnores, hrec⟩ := h.sending ht
  have hrec : L.log.Received c.id ↔ r = 0 := by simpa using hrec
  refine ⟨h.log.addResult (h.log.bound hc) hnores fun hne hr => hne (hrec.mp hr), ?_, ?_, ?_⟩
  · intro u w x out hu
    rcases Ledger.setPhase_cases hu with ⟨-, hpq⟩ | ⟨hut, hu⟩
    · cases hpq
    · obtain ⟨h1, h2, h3, h4⟩ := h.sending hu
      refine ⟨h1, h2, fun r' hr' => ?_, h4⟩
      rcases mem_cons.mp hr' with heq | hr'
      · have hxc := h.log.unique h1 hc (congrArg Prod.fst heq)
        exact hut (h2.symm.trans (hxc ▸ hsrc))
      · exact h3 r' hr'
  · intro u w f x hu
    rcases Ledger.setPhase_cases hu with ⟨-, hpq⟩ | ⟨-, hu⟩
    · cases hpq
    · obtain ⟨h1, h2, h3, h4, h5⟩ := h.handed hu
      exact ⟨h1, h2, h3, mem_cons_of_mem _ h4, h5⟩
  · intro x hx hr
    rcases mem_cons.mp hr with heq | hr
    · have hxc := h.log.unique hx hc (congrArg Prod.fst heq)
      exact Or.inl (hxc ▸ hrec.mpr (congrArg Prod.snd heq).symm)
    · exact h.delivered_aside hx hr (by simp [ht]) (by simp [ht]) _

theorem Accounted.finishReceive {filter : Int32}
    (ht : L.phase t = .receiving true filter (some c)) :
    Accounted ({ L with log := L.log.addReceipt ⟨t, filter, c.message⟩ }.setPhase t .outside) := by
  obtain ⟨-, hc, hdst, hres, hnot, hadm⟩ := h.handed ht
  refine ⟨h.log.addReceipt hc ⟨rfl, hdst, hadm⟩ hnot fun x hx => h.log.result hx hres, ?_, ?_, ?_⟩
  · intro u w x out hu
    rcases Ledger.setPhase_cases hu with ⟨-, hpq⟩ | ⟨-, hu⟩
    · cases hpq
    · obtain ⟨h1, h2, h3, h4⟩ := h.sending hu
      refine ⟨h1, h2, h3, (h.log.received_other hc h1 ?_).trans h4⟩
      rintro rfl
      exact h3 0 hres
  · intro u w f x hu
    rcases Ledger.setPhase_cases hu with ⟨-, hpq⟩ | ⟨hut, hu⟩
    · cases hpq
    · obtain ⟨h1, h2, h3, h4, h5, h6⟩ := h.handed hu
      refine ⟨h1, h2, h3, h4, fun hrec => h5 ((h.log.received_other hc h2 ?_).mp hrec), h6⟩
      rintro rfl
      exact hut (h3.symm.trans hdst)
  · intro x hx hr
    rcases h.delivered hx hr with hrec | ⟨f, hf⟩ | hgone
    · exact Or.inl (Log.received_addReceipt.mpr (Or.inr hrec))
    · by_cases hxt : x.dst = t
      · -- the thread that returns holds this very message
        rw [hxt, ht] at hf
        cases hf
        exact Or.inl (Log.received_addReceipt.mpr (Or.inl rfl))
      · exact Or.inr (Or.inl ⟨f, (update_of_ne hxt _ _).trans hf⟩)
    · refine Or.inr (Or.inr ((update_of_ne ?_ _ _).trans hgone))
      intro hxt
      rw [hxt, ht] at hgone
      cases hgone

end Moves

theorem Accounted.setPhase (h : Accounted L) (hsend : ∀ {w c out}, p = .sending w c out →
      ∃ w' out', L.phase t = .sending w' c out' ∧ (out = some 0 ↔ out' = some 0))
    (hp : ∀ w f c, p ≠ .receiving w f (some c))
    (hold : ∀ w f c, L.phase t ≠ .receiving w f (some c)) (hgone : L.phase t ≠ .gone) :
    Accounted (L.setPhase t p) := by
  refine h.phases ?_ ?_ ?_ ?_
  · intro u w c out hu
    rcases Ledger.setPhase_cases hu with ⟨rfl, hpq⟩ | ⟨-, hu⟩
    · exact hsend hpq
    · exact ⟨w, out, hu, Iff.rfl⟩
  · intro u w f c hu
    rcases Ledger.setPhase_cases hu with ⟨-, hpq⟩ | ⟨-, hu⟩
    · exact absurd hpq (hp w f c)
    · exact hu
  · intro u w f c hu
    refine Or.inl ((update_of_ne ?_ _ _).trans hu)
    rintro rfl
    exact hold w f c hu
  · intro u hu
    refine (update_of_ne ?_ _ _).trans hu
    rintro rfl
    exact hgone hu

theorem Phase.refuse_eq_sending {target : Tid} {w : Bool} {out : Option Int}
    (h : p.refuse target = .sending w c out) :
    ∃ out', p = .sending w c out' ∧ (out = some 0 ↔ out' = some 0) := by
  unfold Phase.refuse at h
  split at h
  · split at h <;> cases h <;> exact ⟨none, rfl, by simp⟩
  · exact ⟨out, h, Iff.rfl⟩

theorem Phase.refuse_eq_self (h : ∀ w c, p = .sending w c none → c.dst ≠ t) : p.refuse t = p := by
  match p, h with
  | .outside, _ => rfl
  | .sending _ _ (some _), _ => rfl
  | .receiving _ _ _, _ => rfl
  | .gone, _ => rfl
  | .sending w c none, h => exact if_neg (h w c rfl)

theorem Accounted.refuse (h : Accounted L) (t : Tid) :
    Accounted ⟨fun u => (L.phase u).refuse t, L.log⟩ := by
  refine h.phases ?_ ?_ ?_ ?_
  · intro u w c out hu
    obtain ⟨out', hold, hout⟩ := Phase.refuse_eq_sending hu
    exact ⟨w, out', hold, hout⟩
  · intro u w f c hu
    unfold Phase.refuse at hu
    split at hu
    · split at hu <;> cases hu
    · exact hu
  · intro u w f c hu
    exact Or.inl (by rw [Phase.refuse_eq_self (by simp [hu]), hu])
  · intro u hu
    rw [Phase.refuse_eq_self (by simp [hu]), hu]

theorem Accounted.exit (h : Accounted L) (t : Tid) : Accounted (L.setPhase t .gone) := by
  refine h.phases ?_ ?_ ?_ ?_
  · intro u w c out hu
    rcases Ledger.setPhase_cases hu with ⟨-, hpq⟩ | ⟨-, hu⟩
    · cases hpq
    · exact ⟨w, out, hu, Iff.rfl⟩
  · intro u w f c hu
    rcases Ledger.setPhase_cases hu with ⟨-, hpq⟩ | ⟨-, hu⟩
    · cases hpq
    · exact hu
  · intro u w f c hu
    by_cases hut : u = t
    · subst hut
      exact Or.inr (update_self _ _ _)
    · exact Or.inl ((update_of_ne hut _ _).trans hu)
  · intro u hu
    by_cases hut : u = t
    · subst hut
      exact update_self _ _ _
    · exact (update_of_ne hut _ _).trans hu

theorem Accounted.queue (h : Accounted L) (hid : c.id = L.log.calls.length)
    (hsrc : L.phase c.src = .outside) :
    Accounted ({ L with log := L.log.addCall c }.setPhase c.src (.sending false c none)) := by
  refine ⟨h.log.addCall hid, ?_, ?_, ?_⟩
  · intro t w x out ht
    rcases Ledger.setPhase_cases ht with ⟨rfl, hpq⟩ | ⟨-, ht⟩
    · cases hpq
      refine ⟨mem_cons_self, rfl, fun r => ?_, fun hr => ?_, by simp⟩
      · rw [hid]
        exact h.log.fresh_result r
      · rw [hid] at hr
        exact absurd hr h.log.fresh_received
    · obtain ⟨h1, h2⟩ := h.sending ht
      exact ⟨mem_cons_of_mem _ h1, h2⟩
  · intro t w f x ht
    rcases Ledger.setPhase_cases ht with ⟨-, hpq⟩ | ⟨-, ht⟩
    · cases hpq
    · obtain ⟨h1, h2, h3⟩ := h.handed ht
      exact ⟨h1, mem_cons_of_mem _ h2, h3⟩
  · intro x hx hr
    have hxL : x ∈ L.log.calls := by
      rcases mem_cons.mp hx with hxc | hx
      · rw [hxc, hid] at hr
        exact absurd hr (h.log.fresh_result 0)
      · exact hx
    exact h.delivered_aside hxL hr (by simp [hsrc]) (by simp [hsrc]) _

theorem Move.accounted {M : Ledger β} (hmove : Move L M) (h : Accounted L) : Accounted M := by
  cases hmove with
  | stay => exact h
  | reject c r hid herr => exact h.call hid (fun t => Or.inl rfl) fun hr => absurd hr herr
  | hand c f hid hwait hadm =>
    refine h.call hid (fun t => ?_) fun _ => ⟨f, update_self _ _ _⟩
    by_cases ht : t = c.dst
    · subst ht
      exact Or.inr ⟨f, rfl, hwait, update_self _ _ _, hadm, rfl⟩
    · exact Or.inl (update_of_ne ht _ _)
  | queue c hid hsrc => exact h.queue hid hsrc
  | take t u f w c hu hdst hadm =>
    subst hdst
    exact h.take hu hadm
  | wait t f ht => exact h.setPhase (by simp) (by simp) (by simp [ht]) (by simp [ht])
  | blockSender t c out ht =>
    refine h.setPhase ?_ (by simp) (by simp [ht]) (by simp [ht])
    rintro w c' out' ⟨⟩
    exact ⟨false, out, ht, Iff.rfl⟩
  | blockReceiver t f ht => exact h.setPhase (by simp) (by simp) (by simp [ht]) (by simp [ht])
  | finishSend t c r ht => exact h.finishSend ht
  | finishReceive t f c ht => exact h.finishReceive ht
  | kill t => exact h.refuse t
  | finish t => exact h.exit t
  | exit t => exact (h.refuse t).exit t

end OrangeOs.Ipc
