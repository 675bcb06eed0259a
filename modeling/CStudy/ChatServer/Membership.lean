import CStudy.ChatServer.Model

/-! Which descriptors are in `master`: the listening socket and the clients that have not been
dropped. The server drops a client when `recv` returns -1, but not when it returns 0, so a client
that closes its connection stays. -/
namespace CStudy.ChatServer
open CStudy.Foundation

def memberStep (fds : Finset ℕ) : Event → Finset ℕ
  | .accepted fd => insert fd fds
  | .dropped fd => fds.erase fd
  | _ => fds

/-- The clients that have been accepted and not been dropped. -/
def members (events : List Event) : Finset ℕ := events.foldl memberStep ∅

def clientStep (fds : Finset ℕ) : Event → Finset ℕ
  | .accepted fd => insert fd fds
  | .received fd [] => fds.erase fd
  | .dropped fd => fds.erase fd
  | _ => fds

/-- The clients that have been accepted and for which `recv` has returned neither 0 nor -1. -/
def clients (events : List Event) : Finset ℕ := events.foldl clientStep ∅

section Folds
variable {events new : List Event} {fd : ℕ} {chunk : List UInt8}

theorem members_append : members (events++new) = new.foldl memberStep (members events) :=
  List.foldl_append

theorem clients_append : clients (events++new) = new.foldl clientStep (clients events) :=
  List.foldl_append

/-- What the server sends is of no account for the clients there are. -/
theorem foldl_sent {β : Type*} (f : β → Event → β) (b : β) (js : List ℕ)
    (hf : ∀ j, f b (.sent j chunk) = b) : (js.map fun j => Event.sent j chunk).foldl f b = b := by
  rw [List.foldl_map]
  exact List.foldl_fixed' hf js

/-- The two differ only by the clients that have closed their connections. -/
theorem foldl_clientStep_eq (fds : Finset ℕ) (h : ∀ fd, .received fd [] ∉ events) :
    events.foldl clientStep fds = events.foldl memberStep fds := by
  induction events generalizing fds with
  | nil => rfl
  | cons e events ih =>
    have hrest : ∀ fd, .received fd [] ∉ events := fun fd hmem => h fd (List.mem_cons_of_mem e hmem)
    rw [List.foldl_cons,List.foldl_cons,ih _ hrest]
    congr 1
    cases e with
    | received fd chunk =>
      cases chunk with
      | nil => exact absurd List.mem_cons_self (h fd)
      | cons c chunk => rfl
    | polled fds => rfl
    | accepted fd => rfl
    | dropped fd => rfl
    | sent fd chunk => rfl
    | perror message => rfl

end Folds

/-- What holds in every state, after these events. -/
structure Sound (serverSock : ℕ) (events : List Event) (s : Server) : Prop where
  listening : s.serverSock = serverSock
  master : s.master = insert serverSock (members events)
  bound : ∀ fd ∈ s.master, fd ≤ s.maxFd
  opened : s.master ⊆ s.opened
  apart : serverSock ∉ members events
  positive : ∀ fd ∈ members events, 1 ≤ fd
  pending : ∀ i, s.position = .scan i → ∀ k ∈ s.reads, i ≤ k → k ∈ s.master

section Invariant
variable {serverSock : ℕ} {events new : List Event} {s t : Server} {answer : Answer}

theorem sound_start {opened : Finset ℕ} (h : start serverSock opened = some s) :
    Sound serverSock [] s := by
  unfold start at h
  split_ifs at h
  cases h
  refine ⟨rfl,?_,?_,?_,?_,?_,?_⟩ <;> simp [members]

/-- The loop is left or entered. -/
theorem Sound.move {position : Position} {reads : Finset ℕ} (h : Sound serverSock events s)
    (hmembers : members (events++new) = members events)
    (hpending : ∀ i, position = .scan i → ∀ k ∈ reads, i ≤ k → k ∈ s.master) :
    Sound serverSock (events++new) { s with position := position, reads := reads } where
  listening := h.listening
  master := by rw [hmembers]; exact h.master
  bound := h.bound
  opened := h.opened
  apart := by rw [hmembers]; exact h.apart
  positive := by rw [hmembers]; exact h.positive
  pending := hpending

/-- The loop goes on. -/
theorem Sound.pass {i : ℕ} (h : Sound serverSock events s) (hpos : s.position = .scan i)
    (hmembers : members (events++new) = members events) :
    Sound serverSock (events++new) (s.next i) := by
  refine h.move hmembers ?_
  rintro k hk fd hfd hle
  cases hk
  exact h.pending i hpos fd hfd (by omega)

theorem Sound.accept {clientSock : ℕ} (h : Sound serverSock events s)
    (hpos : s.position = .scan s.serverSock) (hpositive : 1 ≤ clientSock)
    (hfresh : clientSock ∉ s.opened) :
    Sound serverSock (events++[.accepted clientSock]) ((s.welcome clientSock).next s.serverSock) := by
  have hmembers : members (events++[.accepted clientSock]) = insert clientSock (members events) :=
    members_append
  have hserver : serverSock ∈ s.opened := by
    apply h.opened
    rw [h.master]
    exact Finset.mem_insert_self ..
  refine ⟨h.listening,?_,?_,?_,?_,?_,?_⟩
  · rw [hmembers,Finset.insert_comm,← h.master]
    rfl
  · intro fd hfd
    have hle : s.maxFd ≤ (s.welcome clientSock).maxFd ∧ clientSock ≤ (s.welcome clientSock).maxFd := by
      simp only [Server.welcome]
      split_ifs <;> omega
    rcases Finset.mem_insert.mp hfd with rfl | hfd
    · exact hle.2
    · exact (h.bound fd hfd).trans hle.1
  · exact Finset.insert_subset_insert _ h.opened
  · rw [hmembers,Finset.mem_insert,not_or]
    refine ⟨?_,h.apart⟩
    rintro rfl
    exact hfresh hserver
  · rw [hmembers]
    intro fd hfd
    rcases Finset.mem_insert.mp hfd with rfl | hfd
    · exact hpositive
    · exact h.positive fd hfd
  · rintro k hk fd hfd hle
    cases hk
    exact Finset.mem_insert_of_mem (h.pending _ hpos fd hfd (by omega))

theorem Sound.drop {i : ℕ} (h : Sound serverSock events s) (hpos : s.position = .scan i)
    (hclient : i ≠ s.serverSock) : Sound serverSock (events++[.dropped i]) ((s.drop i).next i) := by
  have hmembers : members (events++[.dropped i]) = (members events).erase i := members_append
  rw [h.listening] at hclient
  refine ⟨h.listening,?_,?_,?_,?_,?_,?_⟩
  · rw [hmembers,← Finset.erase_insert_of_ne (Ne.symm hclient),← h.master]
    rfl
  · intro fd hfd
    exact h.bound fd (Finset.mem_of_mem_erase hfd)
  · exact Finset.erase_subset_erase _ h.opened
  · rw [hmembers]
    exact fun hmem => h.apart (Finset.mem_of_mem_erase hmem)
  · rw [hmembers]
    exact fun fd hfd => h.positive fd (Finset.mem_of_mem_erase hfd)
  · rintro k hk fd hfd hle
    cases hk
    exact Finset.mem_erase.mpr ⟨by omega,h.pending i hpos fd hfd (by omega)⟩

theorem Sound.change (h : Sound serverSock events s) (hc : Change s answer t new) :
    Sound serverSock (events++new) t := by
  cases hc with
  | finish hpos => exact h.move members_append (by rintro i ⟨⟩)
  | skip hpos _ => exact h.pass hpos members_append
  | select _ hsub => exact h.move members_append fun _ _ k hk _ => hsub hk
  | selectFailed _ => exact h.move members_append (by rintro i ⟨⟩)
  | accept hpos hpositive hfresh => exact h.accept hpos hpositive hfresh
  | acceptFailed _ => exact h.move members_append (by rintro i ⟨⟩)
  | recv hpos _ _ =>
    refine h.pass hpos ?_
    rw [members_append,List.foldl_cons,foldl_sent memberStep _ _ fun _ => rfl]
    rfl
  | recvFailed hpos _ hclient => exact h.drop hpos hclient

theorem Sound.step {past : List (List Event)} (h : Sound serverSock past.flatten s)
    (hs : ChatServer.step s answer = some (t,new)) : Sound serverSock (past++[new]).flatten t := by
  rw [List.flatten_concat]
  exact h.change (change_of_step hs)

theorem sound_run {past replies : List (List Event)} {answers : List Answer}
    (h : Sound serverSock past.flatten s) (hrun : Machine.run ChatServer.step s answers =
      some (t,replies)) : Sound serverSock (past++replies).flatten t :=
  Machine.run_invariant (fun past s => Sound serverSock past.flatten s)
    (fun _ _ _ _ _ h hs => h.step hs) h hrun

end Invariant

/-- `master` is the listening socket and the clients that have not ended, and `max_fd` is not below
any of them. -/
def Exact (serverSock : ℕ) (events : List Event) (s : Server) : Prop :=
  s.master = insert serverSock (clients events) ∧ ∀ fd ∈ s.master, fd ≤ s.maxFd

section Closing
variable {serverSock i fd : ℕ} {events new : List Event} {s t : Server} {answer : Answer}
  {answers : List Answer} {past replies : List (List Event)}

theorem received_nil_of_change (hc : Change s answer t new) (hmem : .received fd [] ∈ new) :
    answer = .recv [] := by
  cases hc with
  | recv _ _ _ =>
    rcases List.mem_cons.mp hmem with heq | hmem
    · cases heq
      rfl
    · simp at hmem
  | finish _ => simp at hmem
  | skip _ _ => simp at hmem
  | select _ _ => simp at hmem
  | selectFailed _ => simp at hmem
  | accept _ _ _ => simp at hmem
  | acceptFailed _ => simp at hmem
  | recvFailed _ _ _ => simp at hmem

theorem received_nil_of_run (hrun : Machine.run step s answers = some (t,replies))
    (hmem : .received fd [] ∈ replies.flatten) : .recv [] ∈ answers := by
  induction answers generalizing s replies with
  | nil =>
    cases hrun
    simp at hmem
  | cons answer answers ih =>
    obtain ⟨u,new,replies',hs,hrest,rfl⟩ := Machine.run_cons_eq_some.mp hrun
    rw [List.flatten_cons,List.mem_append] at hmem
    rcases hmem with hmem | hmem
    · rw [received_nil_of_change (change_of_step hs) hmem]
      exact List.mem_cons_self
    · exact List.mem_cons_of_mem _ (ih hrest hmem)

/-- The client `i` has closed its connection and has not been dropped, and the loop is past it. -/
structure Lingers (i : ℕ) (events : List Event) (s : Server) : Prop where
  member : i ∈ members events
  ended : i ∉ clients events
  behind : ∀ k, s.position = .scan k → i < k

theorem Lingers.not_exact (h : Lingers i events s) (hs : Sound serverSock events s) :
    ¬ Exact serverSock events s := by
  rintro ⟨hmaster,_⟩
  have hmem : i ∈ s.master := by
    rw [hs.master]
    exact Finset.mem_insert_of_mem h.member
  rw [hmaster,Finset.mem_insert] at hmem
  rcases hmem with rfl | hmem
  · exact hs.apart h.member
  · exact h.ended hmem

theorem Lingers.of_eq (h : Lingers i events s) (hmembers : members (events++new) = members events)
    (hclients : clients (events++new) = clients events)
    (hbehind : ∀ k, t.position = .scan k → i < k) : Lingers i (events++new) t :=
  ⟨by rw [hmembers]; exact h.member,by rw [hclients]; exact h.ended,hbehind⟩

/-- Nothing changes for it before the loop is at its top again. -/
theorem Lingers.change (h : Lingers i events s) (hs : Sound serverSock events s)
    (hpos : s.position ≠ .top) (hc : Change s answer t new) : Lingers i (events++new) t := by
  cases hc with
  | finish _ => exact h.of_eq members_append clients_append (by rintro k ⟨⟩)
  | @skip k hk _ =>
    have hlt := h.behind k hk
    refine h.of_eq members_append clients_append ?_
    rintro _ ⟨⟩
    omega
  | select htop _ => exact absurd htop hpos
  | selectFailed htop => exact absurd htop hpos
  | @accept clientSock hk _ hfresh =>
    have hlt := h.behind _ hk
    have hopen : i ∈ s.opened := by
      apply hs.opened
      rw [hs.master]
      exact Finset.mem_insert_of_mem h.member
    have hne : i ≠ clientSock := fun heq => hfresh (heq ▸ hopen)
    refine ⟨?_,?_,?_⟩
    · rw [members_append]
      exact Finset.mem_insert_of_mem h.member
    · rw [clients_append]
      exact fun hmem => (Finset.mem_insert.mp hmem).elim hne h.ended
    · rintro _ ⟨⟩
      omega
  | acceptFailed _ => exact h.of_eq members_append clients_append (by rintro k ⟨⟩)
  | @recv k chunk hk _ _ =>
    have hlt := h.behind k hk
    refine ⟨?_,?_,?_⟩
    · rw [members_append,List.foldl_cons,foldl_sent memberStep _ _ fun _ => rfl]
      exact h.member
    · rw [clients_append,List.foldl_cons,foldl_sent clientStep _ _ fun _ => rfl]
      cases chunk with
      | nil => exact fun hmem => h.ended (Finset.mem_of_mem_erase hmem)
      | cons c chunk => exact h.ended
    · rintro _ ⟨⟩
      omega
  | @recvFailed k hk _ _ =>
    have hlt := h.behind k hk
    refine ⟨?_,?_,?_⟩
    · rw [members_append]
      exact Finset.mem_erase.mpr ⟨by omega,h.member⟩
    · rw [clients_append]
      exact fun hmem => h.ended (Finset.mem_of_mem_erase hmem)
    · rintro _ ⟨⟩
      omega

/-- When a client closes its connection, it lingers. -/
theorem lingers_recv (hs : Sound serverSock events s) (hc : Change s (.recv []) t new) :
    ∃ i, Lingers i (events++new) t := by
  cases hc with
  | @recv i _ hpos hset hclient =>
    rw [hs.listening] at hclient
    have hmem := hs.pending i hpos i hset le_rfl
    rw [hs.master,Finset.mem_insert,or_iff_right hclient] at hmem
    refine ⟨i,?_,?_,?_⟩
    · rw [members_append,List.foldl_cons,foldl_sent memberStep _ _ fun _ => rfl]
      exact hmem
    · rw [clients_append,List.foldl_cons,foldl_sent clientStep _ _ fun _ => rfl]
      exact Finset.notMem_erase i (clients events)
    · rintro _ ⟨⟩
      omega

/-- It is still there at the next top of the loop. -/
theorem Lingers.run (h : Lingers i past.flatten s) (hs : Sound serverSock past.flatten s)
    (hrun : Machine.run step s answers = some (t,replies)) (htop : t.position = .top) :
    ∃ done u os, done <+: answers ∧ Machine.run step s done = some (u,os) ∧ u.position = .top ∧
      ¬ Exact serverSock (past++os).flatten u := by
  induction answers generalizing s past replies with
  | nil =>
    cases hrun
    refine ⟨[],t,[],List.nil_prefix,rfl,htop,?_⟩
    rw [List.append_nil]
    exact h.not_exact hs
  | cons answer answers ih =>
    by_cases hpos : s.position = .top
    · refine ⟨[],s,[],List.nil_prefix,rfl,hpos,?_⟩
      rw [List.append_nil]
      exact h.not_exact hs
    · obtain ⟨v,new,replies',hstep,hrest,rfl⟩ := Machine.run_cons_eq_some.mp hrun
      have hlingers : Lingers i (past++[new]).flatten v := by
        rw [List.flatten_concat]
        exact h.change hs hpos (change_of_step hstep)
      obtain ⟨done,u,os,hdone,hu,hutop,hexact⟩ := ih hlingers (hs.step hstep) hrest
      refine ⟨answer::done,u,new::os,List.cons_prefix_cons.mpr ⟨rfl,hdone⟩,
        Machine.run_cons_eq_some.mpr ⟨v,new,os,hstep,hu,rfl⟩,hutop,?_⟩
      rwa [← List.append_cons] at hexact

end Closing

/-- For every run of the server from its start to a top of its loop: `master` is exact at each top,
exactly if no `recv` has returned 0. The set that `select` is given there is `master`. -/
theorem master_exact_iff (serverSock : ℕ) (opened : Finset ℕ) (new t : Server)
    (answers : List Answer) (replies : List (List Event)) (hnew : start serverSock opened = some new)
    (hrun : Machine.run step new answers = some (t,replies)) (htop : t.position = .top) :
    (∀ done u os, done <+: answers → Machine.run step new done = some (u,os) → u.position = .top →
        Exact serverSock os.flatten u) ↔ .recv [] ∉ answers := by
  have hsound : Sound serverSock [].flatten new := sound_start hnew
  constructor
  · intro hall hmem
    obtain ⟨before,after,rfl⟩ := List.append_of_mem hmem
    obtain ⟨s,os₁,_,hbefore,hafter,_⟩ := Machine.run_append.mp hrun
    obtain ⟨v,o,_,hstep,hrest,_⟩ := Machine.run_cons_eq_some.mp hafter
    have hs : Sound serverSock os₁.flatten s := sound_run hsound hbefore
    obtain ⟨i,hlingers⟩ := lingers_recv hs (change_of_step hstep)
    have hlingers' : Lingers i (os₁++[o]).flatten v := by
      rw [List.flatten_concat]
      exact hlingers
    obtain ⟨done,u,os,hdone,hu,hutop,hexact⟩ := hlingers'.run (hs.step hstep) hrest htop
    refine hexact (hall (before++.recv []::done) u _ ?_ ?_ hutop)
    · exact (List.prefix_append_right_inj before).mpr (List.cons_prefix_cons.mpr ⟨rfl,hdone⟩)
    · rw [List.append_assoc]
      exact Machine.run_append.mpr ⟨s,os₁,o::os,hbefore,
        Machine.run_cons_eq_some.mpr ⟨v,o,os,hstep,hu,rfl⟩,rfl⟩
  · intro hnone done u os hdone hu _
    have hs : Sound serverSock os.flatten u := sound_run hsound hu
    have hnil : ∀ fd, .received fd [] ∉ os.flatten :=
      fun fd hmem => hnone (hdone.subset (received_nil_of_run hu hmem))
    refine ⟨?_,hs.bound⟩
    rw [hs.master,members,clients,foldl_clientStep_eq _ hnil]

/-- A client connects and gets the descriptor 4, is heard, and is lost. -/
def losing : List Answer :=
  [.select {3},.noCall,.noCall,.accept 4,.noCall,.noCall,
    .select {4},.noCall,.noCall,.noCall,.recv [104,105],.noCall,
    .select {4},.noCall,.noCall,.noCall,.recvFailed,.noCall]

/-- A client connects and closes its connection. -/
def closing : List Answer :=
  [.select {3},.noCall,.noCall,.accept 4,.noCall,.noCall,
    .select {4},.noCall,.noCall,.noCall,.recv [],.noCall]

theorem master_exact_iff_test : ∃ new t replies, start 3 {0,1,2} = some new ∧
    Machine.run step new losing = some (t,replies) ∧
    ((∀ done u os, done <+: losing → Machine.run step new done = some (u,os) →
        u.position = .top → Exact 3 os.flatten u) ↔ .recv [] ∉ losing) := by
  have hrun : (start 3 {0,1,2}).bind (fun new => (Machine.run step new losing).map fun r =>
      decide (r.1.position = .top)) = some true := by decide +kernel
  obtain ⟨new,hnew,hrun⟩ := Option.bind_eq_some_iff.mp hrun
  obtain ⟨⟨t,replies⟩,hrun,htop⟩ := Option.map_eq_some_iff.mp hrun
  exact ⟨new,t,replies,hnew,hrun,
    master_exact_iff 3 {0,1,2} new t losing replies hnew hrun (of_decide_eq_true htop)⟩

/-- The client that has closed its connection stays in `master`. -/
theorem master_keeps_closed : ∃ new t replies, start 3 {0,1,2} = some new ∧
    Machine.run step new closing = some (t,replies) ∧ t.position = .top ∧ 4 ∈ t.master ∧
    ¬ Exact 3 replies.flatten t := by
  have hrun : (start 3 {0,1,2}).bind (fun new => (Machine.run step new closing).map fun r =>
      decide (r.1.position = .top ∧ 4 ∈ r.1.master ∧
        r.1.master ≠ insert 3 (clients r.2.flatten))) = some true := by decide +kernel
  obtain ⟨new,hnew,hrun⟩ := Option.bind_eq_some_iff.mp hrun
  obtain ⟨⟨t,replies⟩,hrun,hall⟩ := Option.map_eq_some_iff.mp hrun
  obtain ⟨htop,hmem,hmaster⟩ := of_decide_eq_true hall
  exact ⟨new,t,replies,hnew,hrun,htop,hmem,fun h => hmaster h.1⟩

end CStudy.ChatServer
