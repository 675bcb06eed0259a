import CStudy.ThreadPool02.Barrier
import CStudy.Foundation.Progress

/-! The workers of a pool that is alive finish all jobs. The flag of the semaphore stays up after
the first job, so that workers with nothing to do go round in their loop and a run need not end; but
each time a worker goes round it pulls a job if there is one. -/
namespace CStudy.ThreadPool02
open CStudy.Foundation

/-- In the loop of `Worker`, or before it. -/
def WorkerPc.inLoop : WorkerPc → Bool
  | .leave => false
  | .done => false
  | _ => true

/-- The steps a worker makes until it has pulled. -/
def WorkerPc.distance : WorkerPc → ℕ
  | .execute _ => 7
  | .start => 6
  | .countOut => 6
  | .loopTest => 5
  | .semaphoreWait => 4
  | .semaphoreBlocked => 4
  | .aliveTest => 3
  | .countIn => 2
  | .pull => 1
  | _ => 0

/-- The steps of a worker after which the queue with `len` jobs is empty and it holds none. -/
def WorkerPc.debt (len : ℕ) (pc : WorkerPc) : ℕ :=
  if len = 0 then if pc.task?.isSome then 1 else 0 else 7*(len-1)+pc.distance+1

/-- In `ThreadPoolWait` with the pool mutex. -/
def ClientPc.inLock : ClientPc → Bool
  | .waitLength => true
  | .waitWorking => true
  | .waitSleep => true
  | _ => false

/-- The steps of a client until it gives the pool mutex back. -/
def ClientPc.distance : ClientPc → ℕ
  | .waitLength => 3
  | .waitWorking => 2
  | .waitSleep => 1
  | _ => 0

/-- Behind `pool->alive = false` in `ThreadPoolDestory`. -/
def ClientPc.hasStopped : ClientPc → Bool
  | .destoryTest => true
  | .destoryPost => true
  | .destoryFree => true
  | _ => false

/-- The pool mutex is with the client that is in `ThreadPoolWait` with it. -/
def Owner (mutex : Option ℕ) (clients : List ClientPc) : Prop :=
  ∀ c : ℕ, mutex = some c ↔ (clients.map ClientPc.inLock)[c]? = some true

namespace Owner
variable {mutex : Option ℕ} {clients : List ClientPc} {c : ℕ} {pc pc' : ClientPc}

theorem set (h : Owner mutex clients) (hc : clients[c]? = some pc) (hlock : pc'.inLock = pc.inLock) :
    Owner mutex (clients.set c pc') := by
  rw [Owner,Threads.map_set_of_eq hc hlock]
  exact h

theorem lock (h : Owner mutex clients) (hc : clients[c]? = some pc) (hfree : mutex = none)
    (hlock : pc'.inLock = true) : Owner (some c) (clients.set c pc') := by
  intro d
  have hlt : c < (clients.map ClientPc.inLock).length := by
    simpa using (List.getElem?_eq_some_iff.mp hc).1
  rw [List.map_set,hlock]
  by_cases hcd : c = d
  · subst hcd
    simp [List.getElem?_set_self hlt]
  · rw [List.getElem?_set_ne hcd,← h d,hfree]
    simp [hcd]

theorem unlock (h : Owner mutex clients) (hc : clients[c]? = some pc) (hpc : pc.inLock = true)
    (hlock : pc'.inLock = false) : Owner none (clients.set c pc') := by
  intro d
  have hlt : c < (clients.map ClientPc.inLock).length := by
    simpa using (List.getElem?_eq_some_iff.mp hc).1
  have hholder : mutex = some c := (h c).mpr (by simp [hc,hpc])
  rw [List.map_set,hlock]
  by_cases hcd : c = d
  · subst hcd
    simp [List.getElem?_set_self hlt]
  · rw [List.getElem?_set_ne hcd,← h d,hholder]
    simp [hcd]

end Owner

/-- What the threads of a pool that is alive have in common. -/
structure Fit (s : State) : Prop where
  released : s.released = false
  clients : ∀ pc ∈ s.clients, pc.hasStopped = false
  workers : ∀ pc ∈ s.workers, pc.inLoop = true
  held : ∀ p ∈ s.workers.filterMap WorkerPc.task?, ∃ c, s.heap.read p = some c
  owner : ∀ c : ℕ, s.mutex = some c ↔ (s.clients.map ClientPc.inLock)[c]? = some true
  staffed : s.workers ≠ []
  awake : s.pool.jobQueue.length ≠ 0 → ∃ pc ∈ s.workers, pc.isBlocked = false

/-- The clients are where they were, but for a wake-up. -/
def ClientsWoken (s : State) (clients : List ClientPc) : Prop :=
  ∀ (β : Type) (f : ClientPc → β), f .waitLock = f .waitBlocked → clients.map f = s.clients.map f

/-- The workers are where they were, but for a wake-up. -/
def WorkersWoken (s : State) (workers : List WorkerPc) : Prop :=
  ∀ (β : Type) (f : WorkerPc → β), f .semaphoreWait = f .semaphoreBlocked →
    workers.map f = s.workers.map f

/-- The steps of a worker of a pool that is alive. -/
inductive Turned (s : State) (w : ℕ) : State → Event → Prop
  | pass {pc pc' : WorkerPc} {pool : ThreadPool} {clients : List ClientPc}
      (hw : s.workers[w]? = some pc) (hnear : pc'.distance < pc.distance) (hfrom : pc.task? = none)
      (hto : pc'.task? = none) (hloop : pc'.inLoop = true) (hawake : pc'.isBlocked = false)
      (hqueue : pool.jobQueue = s.pool.jobQueue) (halive : pool.alive = s.pool.alive)
      (hclients : ClientsWoken s clients) :
      Turned s w ({ s with pool := pool, clients := clients }.setWorker w pc') .silent
  | sleep (hw : s.workers[w]? = some .semaphoreWait)
      (hflag : s.pool.jobQueue.hasJob.value = false) :
      Turned s w (s.setWorker w .semaphoreBlocked) .silent
  | miss (hw : s.workers[w]? = some .pull) (hlen : s.pool.jobQueue.length = 0) :
      Turned s w (s.setWorker w (.execute none)) .silent
  | take {p : Ptr} {jq : JobQueue} {posted : Bool} {workers : List WorkerPc}
      (hw : s.workers[w]? = some .pull)
      (hp : jobQueuePull s.pool.jobQueue s.heap = some (jq,some p,posted))
      (hworkers : WorkersWoken s workers) :
      Turned s w ({ s with
        pool := { s.pool with jobQueue := jq }
        workers := workers }.setWorker w (.execute (some p))) (.pulled w p)
  | execute {p : Ptr} (hw : s.workers[w]? = some (.execute (some p))) :
      Turned s w ({ s with heap := s.heap.free p }.setWorker w .countOut) (.executed w p)

section Worker
variable {s t : State} {w : ℕ} {wake : Option ℕ} {e : Event} {past : List Event} {rest : List Ptr}

theorem clientsWoken_refl (s : State) : ClientsWoken s s.clients := fun _ _ _ => rfl

theorem clientsWoken_signalPool {u : State} (h : signalPool s wake = some u) :
    ∃ clients, u = { s with clients := clients } ∧ ClientsWoken s clients := by
  obtain ⟨clients,hc,hr⟩ := Option.bind_eq_some_iff.mp h
  cases hr
  exact ⟨clients,rfl,fun _ _ hf => Threads.map_signal (map_waitLock hf) hc⟩

theorem workersWoken_signalSemaphore {u : State} (h : signalSemaphore s wake = some u) :
    ∃ workers, u = { s with workers := workers } ∧ WorkersWoken s workers := by
  obtain ⟨workers,hw,hr⟩ := Option.bind_eq_some_iff.mp h
  cases hr
  exact ⟨workers,rfl,fun _ _ hf => Threads.map_signal (map_semaphoreWait hf) hw⟩

theorem Fit.inLoop (h : Fit s) {pc : WorkerPc} (hw : s.workers[w]? = some pc) : pc.inLoop = true :=
  h.workers pc (List.mem_of_getElem? hw)

theorem pullJob_turned (hacc : Accounts past s rest) (hr : s.released = false)
    (hw : s.workers[w]? = some .pull) (hs : pullJob s w wake = some (t,e)) : Turned s w t e := by
  obtain ⟨⟨jq,job,posted⟩,hp,hs⟩ := Option.bind_eq_some_iff.mp hs
  have hqueue := hacc.queue hr
  cases rest with
  | nil =>
    cases hp.symm.trans hqueue.pull_nil
    cases hs
    exact .miss hw hqueue.length
  | cons p rest =>
    obtain ⟨jq',posted',hp',_⟩ := hqueue.pull_cons
    cases hp.symm.trans hp'
    dsimp only at hs
    split_ifs at hs
    · obtain ⟨u,hu,hs⟩ := Option.bind_eq_some_iff.mp hs
      cases hs
      obtain ⟨workers,rfl,hworkers⟩ := workersWoken_signalSemaphore hu
      exact .take hw hp' hworkers
    · cases hs
      exact .take hw hp' fun _ _ _ => rfl

theorem countOut_turned (hw : s.workers[w]? = some .countOut)
    (hs : countOut s w wake = some (t,e)) : Turned s w t e := by
  unfold countOut at hs
  dsimp only at hs
  split_ifs at hs
  · obtain ⟨u,hu,hr⟩ := Option.bind_eq_some_iff.mp hs
    cases hr
    obtain ⟨clients,rfl,hclients⟩ := clientsWoken_signalPool hu
    exact .pass hw (by decide) rfl rfl rfl rfl rfl rfl hclients
  · cases hs
    exact .pass hw (by decide) rfl rfl rfl rfl rfl rfl (clientsWoken_refl s)

theorem Fit.turned (h : Fit s) (hacc : Accounts past s rest) (halive : s.pool.alive = true)
    (hs : workerStep s w wake = some (t,e)) : Turned s w t e := by
  have hsame := clientsWoken_refl s
  unfold workerStep at hs
  split at hs
  · next task hw =>
    cases task with
    | none =>
      cases hs
      exact .pass hw (by decide) rfl rfl rfl rfl rfl rfl hsame
    | some p =>
      obtain ⟨c,_,hr⟩ := Option.bind_eq_some_iff.mp hs
      cases hr
      exact .execute hw
  · next pc hne hw =>
    rw [if_neg (by rw [h.released]; exact Bool.false_ne_true)] at hs
    cases pc with
    | start =>
      cases locked_eq_some hs
      exact .pass hw (by decide) rfl rfl rfl rfl rfl rfl hsame
    | loopTest =>
      simp only [halive,if_true] at hs
      cases hs
      exact .pass hw (by decide) rfl rfl rfl rfl rfl rfl hsame
    | semaphoreWait =>
      cases hflag : s.pool.jobQueue.hasJob.value with
      | true =>
        simp only [hflag,if_true] at hs
        cases hs
        exact .pass hw (by decide) rfl rfl rfl rfl rfl rfl hsame
      | false =>
        simp only [hflag,Bool.false_eq_true,if_false] at hs
        cases hs
        exact .sleep hw hflag
    | semaphoreBlocked => cases hs
    | aliveTest =>
      simp only [halive,if_true] at hs
      cases hs
      exact .pass hw (by decide) rfl rfl rfl rfl rfl rfl hsame
    | countIn =>
      cases locked_eq_some hs
      exact .pass hw (by decide) rfl rfl rfl rfl rfl rfl hsame
    | pull => exact pullJob_turned hacc h.released hw hs
    | execute task => exact (hne task rfl).elim
    | countOut => exact countOut_turned hw (locked_eq_some hs)
    | leave => cases h.inLoop hw
    | done => cases h.inLoop hw
  · cases hs

end Worker

/-- The steps of worker `w` after which the queue is empty and it holds no job. -/
def debtOf (s : State) (w : ℕ) : ℕ :=
  (s.workers[w]?).elim 0 (WorkerPc.debt s.pool.jobQueue.length)

section Debt
variable {s t : State} {w : ℕ} {e : Event} {past : List Event} {rest : List Ptr} {pc pc' : WorkerPc}
  {len len' : ℕ}

theorem debt_mono (hle : len' ≤ len) (pc : WorkerPc) : pc.debt len' ≤ pc.debt len := by
  unfold WorkerPc.debt
  split_ifs <;> omega

theorem debt_pass (hnear : pc'.distance < pc.distance) (hto : pc'.task? = none) :
    pc'.debt len ≤ pc.debt len-1 := by
  by_cases hlen : len = 0
  · simp [WorkerPc.debt,hlen,hto]
  · rw [WorkerPc.debt,WorkerPc.debt,if_neg hlen,if_neg hlen]
    omega

theorem debtOf_woken (hworkers : WorkersWoken s t.workers)
    (hle : t.pool.jobQueue.length ≤ s.pool.jobQueue.length) (v : ℕ) : debtOf t v ≤ debtOf s v := by
  have hmap := congrArg (fun l : List ℕ => l[v]?)
    (hworkers ℕ (WorkerPc.debt t.pool.jobQueue.length) rfl)
  simp only [List.getElem?_map] at hmap
  unfold debtOf
  cases hs : s.workers[v]? with
  | none =>
    rw [hs,Option.map_none,Option.map_eq_none_iff] at hmap
    rw [hmap]
    rfl
  | some pc =>
    rw [hs,Option.map_some,Option.map_eq_some_iff] at hmap
    obtain ⟨pc',hpc',heq⟩ := hmap
    rw [hpc']
    exact heq.le.trans (debt_mono hle pc)

/-- One worker makes a step, others may be woken. -/
theorem debtOf_set {workers : List WorkerPc} (hw : s.workers[w]? = some pc)
    (hworkers : WorkersWoken s workers) (ht : t.workers = workers.set w pc')
    (hle : t.pool.jobQueue.length ≤ s.pool.jobQueue.length)
    (hpc : pc'.debt t.pool.jobQueue.length ≤ pc.debt s.pool.jobQueue.length-1) (v : ℕ) :
    debtOf t v ≤ debtOf s v-if v = w then 1 else 0 := by
  by_cases hv : v = w
  · subst hv
    have hlen : workers.length = s.workers.length := by
      simpa using congrArg List.length (hworkers Unit (fun _ => ()) rfl)
    have hlt : v < workers.length := hlen ▸ (List.getElem?_eq_some_iff.mp hw).1
    rw [if_pos rfl,debtOf,debtOf,ht,List.getElem?_set_self hlt,hw]
    exact hpc
  · rw [if_neg hv,Nat.sub_zero]
    have hother : debtOf t v = debtOf { t with workers := workers } v := by
      rw [debtOf,debtOf,ht,List.getElem?_set_ne (Ne.symm hv)]
    rw [hother]
    exact debtOf_woken (t := { t with workers := workers }) hworkers hle v

theorem Turned.debtOf_le (h : Turned s w t e) (hr : s.released = false)
    (hacc : Accounts past s rest) :
    t.pool.jobQueue.length ≤ s.pool.jobQueue.length ∧
      ∀ v, debtOf t v ≤ debtOf s v-if v = w then 1 else 0 := by
  have hqueue := hacc.queue hr
  cases h with
  | pass hw hnear _ hto _ _ hjq _ _ =>
    have hlen := congrArg JobQueue.length hjq
    refine ⟨hlen.le,debtOf_set hw (fun _ _ _ => rfl) rfl hlen.le ?_⟩
    rw [State.setWorker,hlen]
    exact debt_pass hnear hto
  | sleep hw hflag =>
    have hlen : s.pool.jobQueue.length = 0 := by
      rw [hqueue.length,List.length_eq_zero_iff]
      by_contra hne
      exact Bool.false_ne_true (hflag.symm.trans (hqueue.flag hne))
    refine ⟨le_rfl,debtOf_set hw (fun _ _ _ => rfl) rfl le_rfl ?_⟩
    rw [State.setWorker,hlen]
    exact Nat.zero_le _
  | miss hw hlen =>
    refine ⟨le_rfl,debtOf_set hw (fun _ _ _ => rfl) rfl le_rfl ?_⟩
    rw [State.setWorker,hlen]
    exact Nat.zero_le _
  | @take p jq posted workers hw hp hworkers =>
    obtain ⟨rest',rfl,hacc'⟩ := hacc.pull hr hw hp
    have hlen := hqueue.length
    have hlen' : jq.length = rest'.length := (hacc'.queue hr).length
    rw [List.length_cons] at hlen
    have hle : jq.length ≤ s.pool.jobQueue.length := by omega
    refine ⟨hle,debtOf_set hw hworkers rfl hle ?_⟩
    simp only [State.setWorker,WorkerPc.debt,WorkerPc.distance,WorkerPc.task?,Option.isSome_some,
      if_true]
    split_ifs <;> omega
  | @execute p hw =>
    refine ⟨le_rfl,debtOf_set hw (fun _ _ _ => rfl) rfl le_rfl ?_⟩
    exact debt_pass (Nat.lt_succ_self 6) rfl

end Debt

section Fit
variable {s t : State} {w c : ℕ} {wake : Option ℕ} {e : Event} {past : List Event} {rest : List Ptr}
  {a : Action}

theorem forall_of_map {α β : Type} {f : α → β} {l l' : List α} {b : β} (h : l'.map f = l.map f)
    (hall : ∀ x ∈ l, f x = b) : ∀ x ∈ l', f x = b := by
  intro x hx
  have hmem : f x ∈ l.map f := h ▸ List.mem_map_of_mem hx
  obtain ⟨y,hy,hxy⟩ := List.mem_map.mp hmem
  exact hxy.symm.trans (hall y hy)

theorem held_set {workers : List WorkerPc} {pc : WorkerPc} {p : Ptr} (hpc : pc.task? = none)
    (hp : p ∈ (workers.set w pc).filterMap WorkerPc.task?) : p ∈ workers.filterMap WorkerPc.task? := by
  obtain ⟨x,hx,hxp⟩ := List.mem_filterMap.mp hp
  rcases List.mem_or_eq_of_mem_set hx with hx | rfl
  · exact List.mem_filterMap.mpr ⟨x,hx,hxp⟩
  · cases hpc.symm.trans hxp

theorem Turned.fit (h : Turned s w t e) (hf : Fit s) (hacc : Accounts past s rest) : Fit t := by
  have hstaffed : ∀ pc : WorkerPc, s.workers.set w pc ≠ [] := by simp [hf.staffed]
  cases h with
  | @pass pc pc' pool clients hw hnear hfrom hto hloop hawake hqueue halive hclients =>
    refine ⟨hf.released,?_,Threads.forall_set hf.workers hloop,fun p hp => ?_,?_,hstaffed pc',
      fun _ => ?_⟩
    · exact forall_of_map (hclients Bool ClientPc.hasStopped rfl) hf.clients
    · exact hf.held p (held_set hto hp)
    · dsimp only [State.setWorker]
      rw [hclients Bool ClientPc.inLock rfl]
      exact hf.owner
    · exact ⟨pc',Threads.mem_set_self hw,hawake⟩
  | sleep hw hflag =>
    refine ⟨hf.released,hf.clients,Threads.forall_set hf.workers rfl,fun p hp => ?_,hf.owner,
      hstaffed _,fun hlen => ?_⟩
    · exact hf.held p (held_set rfl hp)
    · have hqueue := hacc.queue hf.released
      have hrest : rest ≠ [] := by
        rintro rfl
        exact hlen hqueue.length
      exact absurd (hqueue.flag hrest) (by simp [hflag])
  | miss hw hlen =>
    refine ⟨hf.released,hf.clients,Threads.forall_set hf.workers rfl,fun p hp => ?_,hf.owner,
      hstaffed _,fun h => absurd hlen h⟩
    exact hf.held p (held_set rfl hp)
  | @take p jq posted workers hw hp hworkers =>
    obtain ⟨rest',rfl,_⟩ := hacc.pull hf.released hw hp
    have hlen : workers.length = s.workers.length := by
      simpa using congrArg List.length (hworkers Unit (fun _ => ()) rfl)
    have hlt : w < workers.length := hlen ▸ (List.getElem?_eq_some_iff.mp hw).1
    have htasks := Threads.filterMap_eq_of_map (hworkers _ WorkerPc.task? rfl)
    refine ⟨hf.released,hf.clients,?_,fun q hq => ?_,hf.owner,?_,fun _ => ?_⟩
    · exact Threads.forall_set (forall_of_map (hworkers Bool WorkerPc.inLoop rfl) hf.workers) rfl
    · obtain ⟨x,hx,hxq⟩ := List.mem_filterMap.mp hq
      rcases List.mem_or_eq_of_mem_set hx with hx | rfl
      · have hmem : q ∈ workers.filterMap WorkerPc.task? := List.mem_filterMap.mpr ⟨x,hx,hxq⟩
        exact hf.held q (htasks ▸ hmem)
      · cases hxq
        exact (hacc.queue hf.released).chain.read_of_mem List.mem_cons_self
    · exact List.ne_nil_of_length_pos (by simpa [State.setWorker] using Nat.zero_lt_of_lt hlt)
    · exact ⟨.execute (some p),List.mem_of_getElem? (List.getElem?_set_self hlt),rfl⟩
  | @execute p hw =>
    have hperm : (p::(s.workers.set w .countOut).filterMap WorkerPc.task?).Perm
        (s.workers.filterMap WorkerPc.task?) := Threads.filterMap_set_perm WorkerPc.task? hw
    have hnodup : (s.workers.filterMap WorkerPc.task?).Nodup :=
      (List.nodup_append.mp (hacc.flow.accounted.nodup_iff.mp
        (List.nodup_append.mp hacc.flow.nodup).1)).2.1
    refine ⟨hf.released,hf.clients,Threads.forall_set hf.workers rfl,fun q hq => ?_,hf.owner,
      hstaffed _,fun _ => ?_⟩
    · obtain ⟨d,hd⟩ := hf.held q (hperm.mem_iff.mp (List.mem_cons_of_mem p hq))
      have hqp : q ≠ p := by
        rintro rfl
        exact (List.nodup_cons.mp (hperm.nodup_iff.mpr hnodup)).1 hq
      exact ⟨d,(Heap.read_free_of_ne hqp).trans hd⟩
    · exact ⟨.countOut,Threads.mem_set_self hw,rfl⟩

theorem Turned.alive (h : Turned s w t e) : t.pool.alive = s.pool.alive := by
  cases h with
  | pass _ _ _ _ _ _ _ halive _ => exact halive
  | sleep _ _ => rfl
  | miss _ _ => rfl
  | take _ _ _ => rfl
  | execute _ => rfl

theorem Turned.addedJobs (h : Turned s w t e) : ThreadPool02.addedJobs [e] = [] := by
  cases h <;> rfl

/-- A step of a client that leaves the pool mutex alone. -/
theorem Fit.setClient {pc pc' : ClientPc} (hf : Fit s) (hc : s.clients[c]? = some pc)
    (hlock : pc'.inLock = pc.inLock) (hstop : pc'.hasStopped = false) : Fit (s.setClient c pc') :=
  ⟨hf.released,Threads.forall_set hf.clients hstop,hf.workers,hf.held,
    Owner.set hf.owner hc hlock,hf.staffed,hf.awake⟩

theorem Fit.lock {pc' : ClientPc} (hf : Fit s) (hc : s.clients[c]? = some .waitLock)
    (hfree : s.mutex = none) (hlock : pc'.inLock = true) (hstop : pc'.hasStopped = false) :
    Fit ({ s with mutex := some c }.setClient c pc') :=
  ⟨hf.released,Threads.forall_set hf.clients hstop,hf.workers,hf.held,
    Owner.lock hf.owner hc hfree hlock,hf.staffed,hf.awake⟩

theorem Fit.unlock {pc pc' : ClientPc} (hf : Fit s) (hc : s.clients[c]? = some pc)
    (hpc : pc.inLock = true) (hlock : pc'.inLock = false) (hstop : pc'.hasStopped = false) :
    Fit ({ s with mutex := none }.setClient c pc') :=
  ⟨hf.released,Threads.forall_set hf.clients hstop,hf.workers,hf.held,
    Owner.unlock hf.owner hc hpc hlock,hf.staffed,hf.awake⟩

/-- The new job wakes a worker if all of them are blocked. -/
theorem Fit.push {p : Ptr} {jq : JobQueue} {heap : Heap Job} {u : State} (hf : Fit s)
    (hacc : Accounts past s rest) (hc : s.clients[c]? = some (.addTask p))
    (hp : jobQueuePush s.pool.jobQueue s.heap p = some (jq,heap))
    (hs : signalSemaphore { s with heap := heap, pool := { s.pool with jobQueue := jq } } wake =
      some u) : Fit (u.setClient c .idle) := by
  have hpend : p ∈ s.clients.filterMap ClientPc.task? :=
    List.mem_filterMap.mpr ⟨_,List.mem_of_getElem? hc,rfl⟩
  obtain ⟨d,hd⟩ := hacc.pending hf.released p hpend
  have hpq := hacc.flow.pending_notMem_queue hpend
  obtain ⟨jq',heap',hp',_,_,hframe⟩ := (hacc.queue hf.released).push hd hpq
  cases hp.symm.trans hp'
  obtain ⟨workers,hw,hr⟩ := Option.bind_eq_some_iff.mp hs
  cases hr
  have hmap := fun (β : Type) (f : WorkerPc → β) hf =>
    Threads.map_signal (map_semaphoreWait (f := f) hf) hw
  refine @Fit.setClient _ c (.addTask p) _ ⟨hf.released,hf.clients,?_,fun q hq => ?_,hf.owner,?_,
    fun _ => ?_⟩ hc rfl rfl
  · exact forall_of_map (hmap Bool WorkerPc.inLoop rfl) hf.workers
  · have hq' : q ∈ s.workers.filterMap WorkerPc.task? :=
      Threads.filterMap_eq_of_map (hmap _ WorkerPc.task? rfl) ▸ hq
    obtain ⟨d',hd'⟩ := hf.held q hq'
    refine ⟨d',(hframe q ?_).trans hd'⟩
    rw [List.mem_append,List.mem_singleton,not_or]
    refine ⟨hacc.flow.held_notMem_queue hq',?_⟩
    rintro rfl
    exact hacc.flow.held_notMem_pending hq' hpend
  · have hlen := Threads.length_signal hw
    exact List.ne_nil_of_length_pos (hlen ▸ List.length_pos_iff.mpr hf.staffed)
  · exact Threads.exists_awake_signal (fun _ _ => rfl) hf.staffed hw

theorem Fit.clientStep (hf : Fit s) (hacc : Accounts past s rest)
    (hs : ThreadPool02.clientStep s c wake = some (t,e)) : Fit t := by
  unfold ThreadPool02.clientStep at hs
  split at hs
  · next task hc =>
    obtain ⟨⟨jq,heap⟩,hp,hs⟩ := Option.bind_eq_some_iff.mp hs
    obtain ⟨u,hu,hs⟩ := Option.bind_eq_some_iff.mp hs
    cases hs
    exact hf.push hacc hc hp hu
  · next hc =>
    split_ifs at hs with hm
    cases hs
    exact hf.lock hc (by simpa using hm) rfl rfl
  · next hc =>
    cases hs
    split_ifs
    · exact hf.setClient hc rfl rfl
    · exact hf.setClient hc rfl rfl
  · next hc =>
    split_ifs at hs
    · cases hs
      exact hf.setClient hc rfl rfl
    · cases hs
      exact hf.unlock hc rfl rfl rfl
  · next hc =>
    cases hs
    exact hf.unlock hc rfl rfl rfl
  · next hc => cases hf.clients _ (List.mem_of_getElem? hc)
  · next hc => cases hf.clients _ (List.mem_of_getElem? hc)
  · next hc => cases hf.clients _ (List.mem_of_getElem? hc)
  · cases hs

theorem Fit.step (hf : Fit s) (hacc : Accounts past s rest) (halive : s.pool.alive = true)
    (hs : ThreadPool02.step s a = some (t,e)) (halive' : t.pool.alive = true) : Fit t := by
  cases a with
  | createReturn =>
    rw [ThreadPool02.step] at hs
    split_ifs at hs
    cases hs
    exact ⟨hf.released,hf.clients,hf.workers,hf.held,hf.owner,hf.staffed,hf.awake⟩
  | worker w wake => exact (hf.turned hacc halive hs).fit hf hacc
  | client c wake =>
    rw [ThreadPool02.step] at hs
    split_ifs at hs
    exact hf.clientStep hacc hs
  | callAddTask c func arg stale mallocSucceeds =>
    rw [ThreadPool02.step] at hs
    split_ifs at hs with hc
    unfold callAddTask at hs
    split_ifs at hs
    · cases hs
      refine @Fit.setClient _ c .idle _ ⟨hf.released,hf.clients,hf.workers,fun p hp => ?_,hf.owner,
        hf.staffed,hf.awake⟩ hc.2 rfl rfl
      obtain ⟨d,hd⟩ := hf.held p hp
      exact ⟨d,(Heap.read_alloc_of_ne (Heap.lt_top hd).ne).trans hd⟩
    · cases hs
      exact hf
  | callWait c =>
    rw [ThreadPool02.step] at hs
    split_ifs at hs with hc
    cases hs
    exact hf.setClient hc.2 rfl rfl
  | callDestory c =>
    rw [ThreadPool02.step] at hs
    split_ifs at hs
    cases hs
    cases halive'
  | spuriousWorker w =>
    rw [ThreadPool02.step] at hs
    split_ifs at hs with hw
    cases hs
    refine ⟨hf.released,hf.clients,Threads.forall_set hf.workers rfl,fun p hp => ?_,hf.owner,?_,
      fun _ => ?_⟩
    · exact hf.held p (held_set rfl hp)
    · simp [State.setWorker,hf.staffed]
    · exact ⟨.semaphoreWait,Threads.mem_set_self hw,rfl⟩
  | spuriousClient c =>
    rw [ThreadPool02.step] at hs
    split_ifs at hs with hc
    cases hs
    exact hf.setClient hc rfl rfl

theorem pullJob_alive (hs : pullJob s w wake = some (t,e)) : t.pool.alive = s.pool.alive := by
  obtain ⟨⟨jq,job,posted⟩,_,hs⟩ := Option.bind_eq_some_iff.mp hs
  dsimp only at hs
  split_ifs at hs
  · obtain ⟨u,hu,hs⟩ := Option.bind_eq_some_iff.mp hs
    cases hs
    obtain ⟨workers,rfl,_⟩ := workersWoken_signalSemaphore hu
    rfl
  · cases hs
    rfl

theorem countOut_alive (hs : countOut s w wake = some (t,e)) : t.pool.alive = s.pool.alive := by
  unfold countOut at hs
  dsimp only at hs
  split_ifs at hs
  · obtain ⟨u,hu,hr⟩ := Option.bind_eq_some_iff.mp hs
    cases hr
    obtain ⟨clients,rfl,_⟩ := clientsWoken_signalPool hu
    rfl
  · cases hs
    rfl

theorem workerStep_alive (hs : workerStep s w wake = some (t,e)) : t.pool.alive = s.pool.alive := by
  unfold workerStep at hs
  split at hs
  · next task hw =>
    cases task with
    | none => cases hs; rfl
    | some p =>
      obtain ⟨c,_,hr⟩ := Option.bind_eq_some_iff.mp hs
      cases hr
      rfl
  · next pc hne hw =>
    split at hs
    · cases hs
    cases pc with
    | start => cases locked_eq_some hs; rfl
    | countIn => cases locked_eq_some hs; rfl
    | leave => cases locked_eq_some hs; rfl
    | pull => exact pullJob_alive hs
    | countOut => exact countOut_alive (locked_eq_some hs)
    | _ => cases hs <;> rfl
  · cases hs

theorem clientStep_alive (hs : clientStep s c wake = some (t,e)) : t.pool.alive = s.pool.alive := by
  unfold clientStep at hs
  split at hs
  · obtain ⟨⟨jq,heap⟩,_,hs⟩ := Option.bind_eq_some_iff.mp hs
    obtain ⟨u,hu,hs⟩ := Option.bind_eq_some_iff.mp hs
    cases hs
    obtain ⟨workers,rfl,_⟩ := workersWoken_signalSemaphore hu
    rfl
  · split_ifs at hs
    cases hs
    rfl
  · cases hs; rfl
  · split_ifs at hs <;> cases hs <;> rfl
  · cases hs; rfl
  · cases hs; rfl
  · cases hs; rfl
  · obtain ⟨⟨jq,heap⟩,_,hs⟩ := Option.bind_eq_some_iff.mp hs
    cases hs
    rfl
  · cases hs

/-- A pool that was stopped does not come back to life. -/
theorem alive_of_step (hs : step s a = some (t,e)) (halive : t.pool.alive = true) :
    s.pool.alive = true := by
  cases a with
  | worker w wake => rwa [← workerStep_alive hs]
  | client c wake =>
    rw [step] at hs
    split_ifs at hs
    rwa [← clientStep_alive hs]
  | callAddTask c func arg stale mallocSucceeds =>
    rw [step] at hs
    split_ifs at hs
    unfold callAddTask at hs
    split_ifs at hs <;> cases hs <;> exact halive
  | callDestory c =>
    rw [step] at hs
    split_ifs at hs
    cases hs
    cases halive
  | _ =>
    rw [step] at hs
    split_ifs at hs
    cases hs
    exact halive

theorem alive_of_run {actions : List Action} {events : List Event}
    (hrun : Machine.run step s actions = some (t,events)) (halive : t.pool.alive = true) :
    s.pool.alive = true := by
  induction actions generalizing s events with
  | nil =>
    cases hrun
    exact halive
  | cons a actions ih =>
    obtain ⟨u,e,os,hstep,hrest,rfl⟩ := Machine.run_cons_eq_some.mp hrun
    exact alive_of_step hstep (ih hrest)

end Fit

/-- The action is a step of worker `v`. -/
def Action.isStepOf (v : ℕ) : Action → Bool
  | .worker w _ => w == v
  | _ => false

section Run
variable {s t : State} {w c v : ℕ} {wake : Option ℕ} {e : Event} {past events : List Event}
  {rest : List Ptr} {a : Action} {more : List Action}

/-- Where no job is added, a client or another call leaves the queue and the workers alone. -/
theorem step_leaves (hf : Fit s) (hs : step s a = some (t,e)) (hadded : addedJobs [e] = [])
    (halive : t.pool.alive = true) (hworker : ∀ w wake, a ≠ .worker w wake) :
    t.pool.jobQueue.length = s.pool.jobQueue.length ∧ WorkersWoken s t.workers := by
  have hsame : WorkersWoken s s.workers := fun _ _ _ => rfl
  cases a with
  | worker w wake => exact absurd rfl (hworker w wake)
  | client c wake =>
    rw [step] at hs
    split_ifs at hs
    unfold clientStep at hs
    split at hs
    · obtain ⟨⟨jq,heap⟩,_,hs⟩ := Option.bind_eq_some_iff.mp hs
      obtain ⟨u,_,hs⟩ := Option.bind_eq_some_iff.mp hs
      cases hs
      cases hadded
    · split_ifs at hs
      cases hs
      exact ⟨rfl,hsame⟩
    · cases hs; exact ⟨rfl,hsame⟩
    · split_ifs at hs <;> cases hs <;> exact ⟨rfl,hsame⟩
    · cases hs; exact ⟨rfl,hsame⟩
    · next hc => cases hf.clients _ (List.mem_of_getElem? hc)
    · next hc => cases hf.clients _ (List.mem_of_getElem? hc)
    · next hc => cases hf.clients _ (List.mem_of_getElem? hc)
    · cases hs
  | callAddTask c func arg stale mallocSucceeds =>
    rw [step] at hs
    split_ifs at hs
    unfold callAddTask at hs
    split_ifs at hs <;> cases hs <;> exact ⟨rfl,hsame⟩
  | spuriousWorker w =>
    rw [step] at hs
    split_ifs at hs with hw
    cases hs
    refine ⟨rfl,fun β f hf => ?_⟩
    exact Threads.map_set_of_eq hw hf
  | _ =>
    rw [step] at hs
    split_ifs at hs
    cases hs
    exact ⟨rfl,hsame⟩

theorem debtOf_step (hf : Fit s) (hacc : Accounts past s rest) (hs : step s a = some (t,e))
    (hadded : addedJobs [e] = []) (halive : t.pool.alive = true) (v : ℕ) :
    debtOf t v ≤ debtOf s v-if a.isStepOf v then 1 else 0 := by
  by_cases hworker : ∃ w wake, a = .worker w wake
  · obtain ⟨w,wake,rfl⟩ := hworker
    have hturn := hf.turned hacc (alive_of_step hs halive) hs
    have hle := (hturn.debtOf_le hf.released hacc).2 v
    have hiff : (Action.worker w wake).isStepOf v = true ↔ v = w := by
      rw [Action.isStepOf,beq_iff_eq,eq_comm]
    simpa only [hiff] using hle
  · push Not at hworker
    obtain ⟨hlen,hwoken⟩ := step_leaves hf hs hadded halive hworker
    have hnot : a.isStepOf v = false := by
      cases a with
      | worker w wake => exact absurd rfl (hworker w wake)
      | _ => rfl
    rw [hnot]
    exact debtOf_woken hwoken hlen.le v

/-- A run in which no job is added pays off what each worker owes, step by step. -/
theorem debtOf_run (hf : Fit s) (hacc : Accounts past s rest)
    (hrun : Machine.run step s more = some (t,events)) (hadded : addedJobs events = [])
    (halive : t.pool.alive = true) :
    Fit t ∧ ∀ v, debtOf t v ≤ debtOf s v-more.countP (Action.isStepOf v) := by
  induction more generalizing s past rest events with
  | nil =>
    cases hrun
    exact ⟨hf,fun v => le_rfl⟩
  | cons a more ih =>
    obtain ⟨u,e,os,hstep,hrest,rfl⟩ := Machine.run_cons_eq_some.mp hrun
    have hu := alive_of_run hrest halive
    rw [← List.singleton_append,addedJobs,List.filterMap_append,← addedJobs,← addedJobs,
      List.append_eq_nil_iff] at hadded
    obtain ⟨rest',hacc'⟩ := hacc.step hstep
    obtain ⟨ht,hle⟩ := ih (hf.step hacc (alive_of_step hstep hu) hstep hu) hacc' hrest hadded.2
    refine ⟨ht,fun v => ?_⟩
    have hone := debtOf_step hf hacc hstep hadded.1 hu v
    have hmany := hle v
    rw [List.countP_cons]
    split_ifs at hone ⊢ <;> omega

/-- When every worker has paid or is blocked, every job is executed. -/
theorem Fit.finished (hf : Fit s) (hacc : Accounts past s rest)
    (hall : ∀ v pc, s.workers[v]? = some pc → debtOf s v = 0 ∨ pc.isBlocked = true) :
    (executedJobs past).Perm (addedJobs past) := by
  have hlen : s.pool.jobQueue.length = 0 := by
    by_contra hne
    obtain ⟨pc,hpc,hawake⟩ := hf.awake hne
    obtain ⟨v,hv⟩ := List.mem_iff_getElem?.mp hpc
    rcases hall v pc hv with hzero | hblocked
    · rw [debtOf,hv] at hzero
      simp [WorkerPc.debt,hne] at hzero
    · exact Bool.false_ne_true (hawake.symm.trans hblocked)
  have hheld : s.workers.filterMap WorkerPc.task? = [] := by
    rw [List.filterMap_eq_nil_iff]
    intro pc hpc
    obtain ⟨v,hv⟩ := List.mem_iff_getElem?.mp hpc
    rcases hall v pc hv with hzero | hblocked
    · rw [debtOf,hv,hlen] at hzero
      simpa [WorkerPc.debt] using hzero
    · rw [workerBlocked_iff.mp hblocked]
      rfl
  rw [hacc.added_eq_pulled hf.released hlen]
  have hperm := hacc.flow.accounted
  rw [hheld,List.append_nil] at hperm
  exact hperm.symm

end Run

/-- The steps that bring the jobs of a pool to their ends, if no worker goes round for nothing. -/
def load (s : State) : ℕ :=
  (s.workers.map WorkerPc.distance).sum+7*s.pool.jobQueue.length+
    (s.clients.map ClientPc.distance).sum

/-- A step of a worker or of a client in the pool, not a new call. -/
def Action.isStep : Action → Bool
  | .worker _ _ => true
  | .client _ _ => true
  | _ => false

section Progress
variable {s t : State} {w c : ℕ} {wake : Option ℕ} {e : Event} {past : List Event} {rest : List Ptr}

theorem Turned.load_lt (h : Turned s w t e) (hr : s.released = false) (hacc : Accounts past s rest)
    (hbusy : s.pool.jobQueue.length ≠ 0 ∨ ∃ p, s.workers[w]? = some (.execute (some p))) :
    load t < load s := by
  have hqueue := hacc.queue hr
  cases h with
  | @pass pc pc' pool clients hw hnear _ _ _ _ hjq _ hclients =>
    have hsum := Threads.sum_set (y := pc') WorkerPc.distance hw
    simp only [load,State.setWorker,hjq,hclients ℕ ClientPc.distance rfl]
    omega
  | sleep hw hflag =>
    rcases hbusy with hlen | ⟨p,hp⟩
    · rw [hqueue.length,ne_eq,List.length_eq_zero_iff] at hlen
      exact absurd (hqueue.flag hlen) (by simp [hflag])
    · cases hw.symm.trans hp
  | miss hw hlen =>
    rcases hbusy with hne | ⟨p,hp⟩
    · exact absurd hlen hne
    · cases hw.symm.trans hp
  | @take p jq posted workers hw hp hworkers =>
    obtain ⟨rest',rfl,hacc'⟩ := hacc.pull hr hw hp
    have hlen := hqueue.length
    have hlen' : jq.length = rest'.length := (hacc'.queue hr).length
    rw [List.length_cons] at hlen
    have hget : workers[w]? = some .pull := by
      have hmap := congrArg (fun l : List Bool => l[w]?)
        (hworkers Bool (fun pc => decide (pc = .pull)) (by decide))
      simp only [List.getElem?_map,hw,Option.map_some,Option.map_eq_some_iff] at hmap
      obtain ⟨pc,hpc,heq⟩ := hmap
      rw [hpc,show pc = .pull by simpa using heq]
    have hsum := Threads.sum_set (y := .execute (some p)) WorkerPc.distance hget
    rw [hworkers ℕ WorkerPc.distance rfl] at hsum
    simp only [load,State.setWorker,WorkerPc.distance] at hsum ⊢
    omega
  | @execute p hw =>
    have hsum := Threads.sum_set (y := .countOut) WorkerPc.distance hw
    simp only [load,State.setWorker,WorkerPc.distance] at hsum ⊢
    omega

/-- A worker that is not blocked has a next step when no client has the pool mutex. -/
theorem exists_workerStep {pc : WorkerPc} (hr : s.released = false)
    (hheld : ∀ p ∈ s.workers.filterMap WorkerPc.task?, ∃ c, s.heap.read p = some c)
    (hacc : Accounts past s rest) (hfree : s.mutex = none) (hw : s.workers[w]? = some pc)
    (hpc : pc.isBlocked = false) (hdone : pc ≠ .done) : ∃ wake t e, workerStep s w wake = some (t,e) := by
  cases pc with
  | start => exact ⟨none,by simp [workerStep,hw,hr,locked,hfree]⟩
  | loopTest => exact ⟨none,by simp [workerStep,hw,hr]⟩
  | semaphoreWait => exact ⟨none,by simp [workerStep,hw,hr]⟩
  | semaphoreBlocked => cases hpc
  | aliveTest => exact ⟨none,by simp [workerStep,hw,hr]⟩
  | countIn => exact ⟨none,by simp [workerStep,hw,hr,locked,hfree]⟩
  | pull =>
    obtain ⟨choice,us,hus⟩ := Threads.exists_signal WorkerPc.isBlocked (fun _ => .semaphoreWait) s.workers
    refine ⟨choice,?_⟩
    have hqueue := hacc.queue hr
    cases rest with
    | nil => simp [workerStep,hw,hr,pullJob,hqueue.pull_nil]
    | cons p rest =>
      obtain ⟨jq,posted,hp,_⟩ := hqueue.pull_cons
      cases posted <;> simp [workerStep,hw,hr,pullJob,hp,signalSemaphore,hus]
  | execute task =>
    cases task with
    | none => exact ⟨none,by simp [workerStep,hw,executeJob]⟩
    | some p =>
      obtain ⟨d,hd⟩ := hheld p (List.mem_filterMap.mpr ⟨_,List.mem_of_getElem? hw,rfl⟩)
      exact ⟨none,by simp [workerStep,hw,executeJob,hd]⟩
  | countOut =>
    obtain ⟨choice,us,hus⟩ := Threads.exists_signal ClientPc.isBlocked (fun _ => .waitLock) s.clients
    refine ⟨choice,?_⟩
    by_cases hz : s.pool.workingThreads-1 = 0 <;>
      simp [workerStep,hw,hr,locked,hfree,countOut,hz,signalPool,hus]
  | leave => exact ⟨none,by simp [workerStep,hw,hr,locked,hfree]⟩
  | done => exact absurd rfl hdone

/-- The client with the pool mutex comes closer to giving it back. -/
theorem holder_step (howner : Owner s.mutex s.clients) (hr : s.released = false)
    (hm : s.mutex = some c) :
    ∃ t e pc', step s (.client c none) = some (t,e) ∧ addedJobs [e] = [] ∧ t.pool = s.pool ∧
      t.released = s.released ∧ t.workers = s.workers ∧ t.clients = s.clients.set c pc' ∧
      (t.clients.map ClientPc.distance).sum < (s.clients.map ClientPc.distance).sum := by
  obtain ⟨pc,hc,hlock⟩ := Option.map_eq_some_iff.mp (List.getElem?_map.symm.trans ((howner c).mp hm))
  have hstep : step s (.client c none) = clientStep s c none := by
    rw [step,hr]
    rfl
  have hsum := fun pc' => Threads.sum_set (y := pc') ClientPc.distance hc
  rw [hstep,clientStep,hc]
  cases pc with
  | waitLength =>
    refine ⟨_,_,_,rfl,rfl,rfl,rfl,rfl,rfl,?_⟩
    have h₁ := hsum .waitSleep
    have h₂ := hsum .waitWorking
    simp only [State.setClient,ClientPc.distance] at h₁ h₂ ⊢
    split_ifs <;> omega
  | waitWorking =>
    dsimp only
    split_ifs
    · refine ⟨_,_,_,rfl,rfl,rfl,rfl,rfl,rfl,?_⟩
      have h₁ := hsum .waitSleep
      simp only [State.setClient,ClientPc.distance] at h₁ ⊢
      omega
    · refine ⟨_,_,_,rfl,rfl,rfl,rfl,rfl,rfl,?_⟩
      have h₁ := hsum .idle
      simp only [State.setClient,ClientPc.distance] at h₁ ⊢
      omega
  | waitSleep =>
    refine ⟨_,_,_,rfl,rfl,rfl,rfl,rfl,rfl,?_⟩
    have h₁ := hsum .waitBlocked
    simp only [State.setClient,ClientPc.distance] at h₁ ⊢
    omega
  | _ => cases hlock

/-- As long as a job is queued or held, some thread can bring the jobs closer to their ends. -/
theorem Fit.progress (hf : Fit s) (hacc : Accounts past s rest) (halive : s.pool.alive = true)
    (hbusy : s.pool.jobQueue.length ≠ 0 ∨ s.workers.filterMap WorkerPc.task? ≠ []) :
    ∃ a t e, a.isStep = true ∧ ThreadPool02.step s a = some (t,e) ∧ addedJobs [e] = [] ∧
      t.pool.alive = true ∧ load t < load s := by
  cases hm : s.mutex with
  | some c =>
    obtain ⟨t,e,_,hs,hadded,hpool,_,hworkers,_,hlt⟩ := holder_step hf.owner hf.released hm
    refine ⟨.client c none,t,e,rfl,hs,hadded,by rw [hpool,halive],?_⟩
    rw [load,load,hpool,hworkers]
    omega
  | none =>
    have hworker : ∃ (w : ℕ) (pc : WorkerPc), s.workers[w]? = some pc ∧ pc.isBlocked = false ∧
        (s.pool.jobQueue.length ≠ 0 ∨ ∃ p, s.workers[w]? = some (.execute (some p))) := by
      rcases hbusy with hlen | hheld
      · obtain ⟨pc,hpc,hawake⟩ := hf.awake hlen
        obtain ⟨w,hw⟩ := List.mem_iff_getElem?.mp hpc
        exact ⟨w,pc,hw,hawake,.inl hlen⟩
      · obtain ⟨p,hp⟩ := List.exists_mem_of_ne_nil _ hheld
        obtain ⟨pc,hpc,htask⟩ := List.mem_filterMap.mp hp
        obtain ⟨w,hw⟩ := List.mem_iff_getElem?.mp hpc
        cases pc with
        | execute task =>
          cases htask
          exact ⟨w,_,hw,rfl,.inr ⟨p,hw⟩⟩
        | _ => cases htask
    obtain ⟨w,pc,hw,hawake,hwork⟩ := hworker
    have hdone : pc ≠ .done := by
      rintro rfl
      cases hf.inLoop hw
    obtain ⟨wake,t,e,hs⟩ := exists_workerStep hf.released hf.held hacc hm hw hawake hdone
    have hturn := hf.turned hacc halive hs
    exact ⟨.worker w wake,t,e,rfl,hs,hturn.addedJobs,hturn.alive.trans halive,
      hturn.load_lt hf.released hacc hwork⟩

theorem Fit.exists_finish (hf : Fit s) (hacc : Accounts past s rest) (halive : s.pool.alive = true) :
    ∃ more t events, (∀ a ∈ more, a.isStep = true) ∧ Machine.run ThreadPool02.step s more =
      some (t,events) ∧ addedJobs events = [] ∧
      (executedJobs (past++events)).Perm (addedJobs past) := by
  induction hm : load s using Nat.strong_induction_on generalizing s past rest with
  | _ m ih =>
    by_cases hbusy : s.pool.jobQueue.length ≠ 0 ∨ s.workers.filterMap WorkerPc.task? ≠ []
    · obtain ⟨a,t,e,ha,hs,hadded,halive',hlt⟩ := hf.progress hacc halive hbusy
      obtain ⟨rest',hacc'⟩ := hacc.step hs
      obtain ⟨more,u,events,hmore,hrun,hnone,hperm⟩ := ih (load t) (hm ▸ hlt)
        (hf.step hacc halive hs halive') hacc' halive' rfl
      refine ⟨a::more,u,e::events,?_,?_,?_,?_⟩
      · intro b hb
        rcases List.mem_cons.mp hb with rfl | hb
        · exact ha
        · exact hmore b hb
      · rw [Machine.run_cons hs,hrun]
        rfl
      · rw [← List.singleton_append,addedJobs,List.filterMap_append,← addedJobs,← addedJobs,hadded,
          hnone,List.append_nil]
      · rw [(extends_event past e).1,hadded,List.append_nil,List.append_assoc] at hperm
        exact hperm
    · push Not at hbusy
      refine ⟨[],s,[],by simp,rfl,rfl,?_⟩
      have hperm := hacc.flow.accounted
      rw [hbusy.2,List.append_nil] at hperm
      rw [List.append_nil,hacc.added_eq_pulled hf.released hbusy.1]
      exact hperm.symm

end Progress

theorem fit_create {numThreads : ℕ} {created : ℕ → Bool} {clients : ℕ}
    (hsome : ∃ i, i < numThreads ∧ created i = true) :
    Fit (threadPoolCreate numThreads created clients) := by
  refine ⟨rfl,?_,?_,?_,?_,?_,fun h => absurd rfl h⟩
  · intro pc hpc
    rw [List.eq_of_mem_replicate hpc]
    rfl
  · intro pc hpc
    obtain ⟨_,_,rfl⟩ := List.mem_map.mp hpc
    rfl
  · intro p hp
    obtain ⟨pc,hpc,hp⟩ := List.mem_filterMap.mp hp
    obtain ⟨_,_,rfl⟩ := List.mem_map.mp hpc
    cases hp
  · intro c
    simp only [threadPoolCreate,List.map_replicate,List.getElem?_replicate]
    split_ifs <;> simp [ClientPc.inLock]
  · obtain ⟨i,hi,hcreated⟩ := hsome
    intro hnil
    have hmem : i ∈ (List.range numThreads).filter created :=
      List.mem_filter.mpr ⟨List.mem_range.mpr hi,hcreated⟩
    rw [List.map_eq_nil_iff.mp hnil] at hmem
    cases hmem

/-- In every run of a pool that is alive, at whatever moment: if no more jobs are added and every
worker goes on for seven steps a queued job and one more, or is blocked in the end, then every job
is executed, whatever else the threads do. And the threads in the pool can always get there. -/
theorem workers_finish (numThreads : ℕ) (created : ℕ → Bool) (clients : ℕ) (s : State)
    (actions : List Action) (past : List Event) (hsome : ∃ i, i < numThreads ∧ created i = true)
    (hpast : Machine.run step (threadPoolCreate numThreads created clients) actions =
      some (s,past)) (halive : s.pool.alive = true) :
    (∀ more t events, Machine.run step s more = some (t,events) → addedJobs events = [] →
      t.pool.alive = true →
      (∀ w pc, t.workers[w]? = some pc → pc.isBlocked = true ∨
        7*s.pool.jobQueue.length+1 ≤ more.countP (Action.isStepOf w)) →
      (executedJobs (past++events)).Perm (addedJobs past)) ∧
      ∃ more t events, (∀ a ∈ more, a.isStep = true) ∧ Machine.run step s more = some (t,events) ∧
        addedJobs events = [] ∧ (executedJobs (past++events)).Perm (addedJobs past) := by
  have hinv := Machine.run_invariant
    (fun past s => (∃ rest, Accounts past s rest) ∧ (s.pool.alive = true → Fit s))
    (fun _ _ _ _ _ hi hs => hi.1.elim fun _ hacc => ⟨hacc.step hs,fun hr =>
      (hi.2 (alive_of_step hs hr)).step hacc (alive_of_step hs hr) hs hr⟩)
    ⟨⟨[],accounts_create numThreads created clients⟩,fun _ => fit_create hsome⟩ hpast
  rw [List.nil_append] at hinv
  obtain ⟨⟨rest,hacc⟩,hfit⟩ := hinv
  have hf := hfit halive
  refine ⟨?_,hf.exists_finish hacc halive⟩
  intro more t events hrun hadded halive' hfair
  obtain ⟨ht,hpaid⟩ := debtOf_run hf hacc hrun hadded halive'
  obtain ⟨rest',hacc'⟩ := Machine.run_invariant (fun past s => ∃ rest, Accounts past s rest)
    (fun _ _ _ _ _ hi hs => hi.elim fun _ hacc => hacc.step hs) ⟨rest,hacc⟩ hrun
  have hsum : addedJobs (past++events) = addedJobs past := by
    rw [addedJobs,List.filterMap_append,← addedJobs,← addedJobs,hadded,List.append_nil]
  rw [← hsum]
  refine ht.finished hacc' fun v pc hv => ?_
  rcases hfair v pc hv with hblocked | hsteps
  · exact .inr hblocked
  · left
    have hle := hpaid v
    have hdebt : debtOf s v ≤ 7*s.pool.jobQueue.length+1 := by
      unfold debtOf
      cases s.workers[v]? with
      | none => exact Nat.zero_le _
      | some pc =>
        dsimp only [Option.elim_some]
        have hfar : pc.distance ≤ 7 := by cases pc <;> simp [WorkerPc.distance]
        unfold WorkerPc.debt
        split_ifs <;> omega
    omega

/-- One job is queued, and the only worker goes round once. -/
theorem workers_finish_test : ∃ s past t events, (∃ i, i < 1 ∧ true = true) ∧
    Machine.run step (threadPoolCreate 1 (fun _ => true) 1)
      [.worker 0 none,.createReturn,.callAddTask 0 0 0 none true,.client 0 none] = some (s,past) ∧
    s.pool.alive = true ∧
    Machine.run step s (List.replicate 8 (.worker 0 none)) = some (t,events) ∧
    addedJobs past = [0] ∧ (executedJobs (past++events)).Perm (addedJobs past) := by
  refine ⟨_,_,_,_,⟨0,by decide,rfl⟩,rfl,rfl,rfl,rfl,?_⟩
  refine (workers_finish 1 (fun _ => true) 1 _
    [.worker 0 none,.createReturn,.callAddTask 0 0 0 none true,.client 0 none] _
    ⟨0,by decide,rfl⟩ rfl rfl).1 (List.replicate 8 (.worker 0 none)) _ _ rfl rfl rfl ?_
  intro w pc hw
  right
  obtain rfl : w = 0 := by
    have hlt := (List.getElem?_eq_some_iff.mp hw).1
    exact Nat.lt_one_iff.mp hlt
  decide

end CStudy.ThreadPool02
