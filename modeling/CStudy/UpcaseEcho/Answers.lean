import CStudy.UpcaseEcho.Model
import CStudy.Foundation.Threads
import Mathlib.Data.List.TakeWhile

/-! What the clients print. The answers on their way to a client are a multiset: a client that asks
adds one, a client that prints takes one, the server only carries them. The network may take one away
or add a copy. -/
namespace CStudy.UpcaseEcho
open CStudy.Foundation
open CStudy.UpcaseServer (toupper)

/-- What the server makes of a message. -/
def answer (m : Message) : List UInt8 := upcase (m.val.take bufferSize)

/-- The answer the server is about to send to client `k`. -/
def ServerPc.own (k : ℕ) : ServerPc → Multiset (List UInt8)
  | .sending client buffer => if client = k then {buffer} else 0
  | _ => 0

/-- The answers on their way to client `k`, counting those that the server has yet to make. -/
def underway (s : State) (k : ℕ) : Multiset (List UInt8) :=
  (Datagram.bound k s.requests).map (fun b => upcase (b.take bufferSize))+s.server.own k+
    Datagram.bound k s.responses

/-- One answer for client `k`. -/
def one (k : ℕ) (b : List UInt8) (j : ℕ) : Multiset (List UInt8) := if k = j then {b} else 0

/-- What an action is to the clients. -/
inductive Kind
  | carry
  | ask
  | print
  | fail
  | lose
  | double
  deriving DecidableEq

def Action.kind : Action → Kind
  | .serverReceive _ => .carry
  | .serverReceiveFails => .carry
  | .serverSend => .carry
  | .serverSendFails => .lose
  | .clientSend _ => .ask
  | .clientSendFails _ => .fail
  | .clientReceive _ _ => .print
  | .clientReceiveFails _ => .fail
  | .lose _ _ => .lose
  | .double _ _ => .double

/-- All that a step can do to the clients and to the answers on their way to them. -/
inductive Change (s t : State) : Kind → Prop
  | carry (hclients : t.clients = s.clients) (hway : ∀ j, underway t j = underway s j) :
      Change s t .carry
  | ask {k : ℕ} {c : Client} {m : Message} (hc : s.clients[k]? = some c) (hpc : c.pc = .sending)
      (hm : c.messages[c.next]? = some m) (hclients : t.clients = s.clients.set k (c.move .receiving))
      (hway : ∀ j, underway t j = one k (answer m) j+underway s j) : Change s t .ask
  | print {k : ℕ} {c : Client} {b : List UInt8} (hc : s.clients[k]? = some c)
      (hpc : c.pc = .receiving)
      (hclients : t.clients = s.clients.set k (c.print (b.take bufferSize)))
      (hway : ∀ j, underway s j = one k b j+underway t j) : Change s t .print
  | fail {k : ℕ} {c : Client} (hc : s.clients[k]? = some c)
      (hclients : t.clients = s.clients.set k (c.move .exited))
      (hway : ∀ j, underway t j = underway s j) : Change s t .fail
  | lose {k : ℕ} {b : List UInt8} (hclients : t.clients = s.clients)
      (hway : ∀ j, underway s j = one k b j+underway t j) : Change s t .lose
  | double {k : ℕ} {b : List UInt8} (hclients : t.clients = s.clients) (hb : b ∈ underway s k)
      (hway : ∀ j, underway t j = one k b j+underway s j) : Change s t .double

section Step
variable {s t : State} {i k : ℕ} {e : Event} {a : Action}

theorem own_eq_one (d : Datagram (List UInt8)) (j : ℕ) : Datagram.own j d = one d.port d.bytes j := rfl

theorem map_own (f : List UInt8 → List UInt8) (d : Datagram (List UInt8)) (j : ℕ) :
    (Datagram.own j d).map f = one d.port (f d.bytes) j := by
  unfold Datagram.own one
  split_ifs <;> simp

theorem serverReceive_change (h : serverReceive s i = some (t,e)) : Change s t .carry := by
  unfold serverReceive at h
  split at h
  · next d hserver hd =>
    cases h
    refine .carry rfl fun j => ?_
    rw [underway,underway,hserver,Datagram.bound_eraseIdx hd,Multiset.map_add,map_own]
    simp only [ServerPc.own,one]
    abel
  · cases h

theorem serverSend_change (h : serverSend s = some (t,e)) : Change s t .carry := by
  unfold serverSend at h
  split at h
  · next client buffer hserver =>
    cases h
    refine .carry rfl fun j => ?_
    rw [underway,underway,hserver,Datagram.bound_concat,own_eq_one]
    simp only [ServerPc.own,one]
    abel
  · cases h

theorem clientSend_change (h : clientSend s k = some (t,e)) : Change s t .ask := by
  unfold clientSend at h
  split at h
  · next c hc =>
    split at h
    · next m hpc hm =>
      cases h
      refine .ask hc hpc hm rfl fun j => ?_
      rw [underway,underway]
      simp only [State.setClient,Datagram.bound_concat,Multiset.map_add,map_own,answer]
      abel
    · cases h
  · cases h

theorem clientReceive_change (h : clientReceive s k i = some (t,e)) : Change s t .print := by
  unfold clientReceive at h
  split at h
  · next c d hc hd =>
    split_ifs at h with hk
    cases h
    refine .print hc hk.1 rfl fun j => ?_
    rw [underway,underway,Datagram.bound_eraseIdx hd,own_eq_one,hk.2]
    simp only [State.setClient]
    abel
  · cases h

theorem clientFails_change {pc : ClientPc} {call : String}
    (h : clientFails s k pc call = some (t,e)) : Change s t .fail := by
  unfold clientFails at h
  split at h
  · next c hc =>
    split_ifs at h
    cases h
    exact .fail hc rfl fun _ => rfl
  · cases h

/-- A datagram in either direction is one answer on its way. -/
theorem underway_net {way : Way} {d : Datagram (List UInt8)} (hd : (s.net way)[i]? = some d) :
    ∃ b, (∀ j, underway s j = one d.port b j+
        underway (s.setNet ((s.net way).eraseIdx i) way) j) ∧
      ∀ j, underway (s.setNet (s.net way++[d]) way) j = one d.port b j+underway s j := by
  cases way with
  | requests =>
    rw [State.net] at hd
    refine ⟨upcase (d.bytes.take bufferSize),fun j => ?_,fun j => ?_⟩
    · rw [underway,Datagram.bound_eraseIdx hd,Multiset.map_add,map_own]
      simp only [underway,State.setNet,State.net]
      abel
    · simp only [underway,State.setNet,State.net,Datagram.bound_concat,Multiset.map_add,map_own]
      abel
  | responses =>
    rw [State.net] at hd
    refine ⟨d.bytes,fun j => ?_,fun j => ?_⟩
    · rw [underway,Datagram.bound_eraseIdx hd,own_eq_one]
      simp only [underway,State.setNet,State.net]
      abel
    · simp only [underway,State.setNet,State.net,Datagram.bound_concat,own_eq_one]
      abel

theorem setNet_clients (net : List (Datagram (List UInt8))) (way : Way) :
    (s.setNet net way).clients = s.clients := by cases way <;> rfl

/-- Every step is one of the changes. -/
theorem step_change (h : step s a = some (t,e)) : Change s t a.kind := by
  cases a with
  | serverReceive i => exact serverReceive_change h
  | serverReceiveFails =>
    rw [step] at h
    split at h
    · next hserver =>
      cases h
      refine .carry rfl fun j => ?_
      rw [underway,underway,hserver]
      rfl
    · cases h
  | serverSend => exact serverSend_change h
  | serverSendFails =>
    rw [step] at h
    split at h
    · next client buffer hserver =>
      cases h
      refine @Change.lose _ _ client buffer rfl fun j => ?_
      rw [underway,underway,hserver]
      simp only [ServerPc.own,one]
      abel
    · cases h
  | clientSend k => exact clientSend_change h
  | clientSendFails k => exact clientFails_change h
  | clientReceive k i => exact clientReceive_change h
  | clientReceiveFails k => exact clientFails_change h
  | lose way i =>
    rw [step] at h
    split_ifs at h with hi
    cases h
    obtain ⟨b,hway,_⟩ := underway_net (List.getElem?_eq_getElem hi)
    exact .lose (setNet_clients _ way) hway
  | double way i =>
    rw [step] at h
    split at h
    · next d hd =>
      cases h
      obtain ⟨b,hway,hcopy⟩ := underway_net hd
      refine .double (setNet_clients _ way) ?_ hcopy
      rw [hway,one,if_pos rfl]
      exact Multiset.mem_add.mpr (.inl (Multiset.mem_singleton_self b))
    · cases h

end Step

section Each
variable {P : Client → Multiset (List UInt8) → Prop} {s t : State} {kind : Kind}

/-- Each client by itself: a property of a client and the answers on their way to it. -/
def Each (P : Client → Multiset (List UInt8) → Prop) (s : State) : Prop :=
  ∀ k c, s.clients[k]? = some c → P c (underway s k)

/-- What every change to one client keeps holds of each client after the step. -/
theorem Change.each (h : Change s t kind) (hP : Each P s)
    (ask : kind = .ask → ∀ c u m, c.pc = .sending → c.messages[c.next]? = some m → P c u →
      P (c.move .receiving) ({answer m}+u))
    (print : kind = .print → ∀ c u b, c.pc = .receiving → P c ({b}+u) →
      P (c.print (b.take bufferSize)) u)
    (fail : kind = .fail → ∀ c u, P c u → P (c.move .exited) u)
    (lose : kind = .lose → ∀ c u b, P c ({b}+u) → P c u)
    (double : kind = .double → ∀ c u b, b ∈ u → P c u → P c ({b}+u)) : Each P t := by
  intro j d hd
  -- the client that a change is about, or another one
  have hset : ∀ {k : ℕ} {c c' : Client}, s.clients[k]? = some c → t.clients = s.clients.set k c' →
      (k = j ∧ d = c') ∨ (k ≠ j ∧ s.clients[j]? = some d) := by
    intro k c c' hc ht
    rw [ht] at hd
    by_cases hkj : k = j
    · subst hkj
      rw [List.getElem?_set_self (List.getElem?_eq_some_iff.mp hc).1] at hd
      exact .inl ⟨rfl,(Option.some.inj hd).symm⟩
    · rw [List.getElem?_set_ne hkj] at hd
      exact .inr ⟨hkj,hd⟩
  cases h with
  | carry hclients hway =>
    rw [hway j]
    exact hP j d (hclients ▸ hd)
  | @ask k c m hc hpc hm hclients hway =>
    rw [hway j]
    rcases hset hc hclients with ⟨rfl,rfl⟩ | ⟨hkj,hd⟩
    · rw [one,if_pos rfl]
      exact ask rfl c _ m hpc hm (hP k c hc)
    · rw [one,if_neg hkj,zero_add]
      exact hP j d hd
  | @print k c b hc hpc hclients hway =>
    rcases hset hc hclients with ⟨rfl,rfl⟩ | ⟨hkj,hd⟩
    · have hPc := hP k c hc
      rw [hway k,one,if_pos rfl] at hPc
      exact print rfl c _ b hpc hPc
    · have hPd := hP j d hd
      rwa [hway j,one,if_neg hkj,zero_add] at hPd
  | @fail k c hc hclients hway =>
    rw [hway j]
    rcases hset hc hclients with ⟨rfl,rfl⟩ | ⟨_,hd⟩
    · exact fail rfl c _ (hP k c hc)
    · exact hP j d hd
  | @lose k b hclients hway =>
    have hPd := hP j d (hclients ▸ hd)
    rw [hway j,one] at hPd
    split_ifs at hPd
    · exact lose rfl d _ b hPd
    · rwa [zero_add] at hPd
  | @double k b hclients hb hway =>
    have hPd := hP j d (hclients ▸ hd)
    rw [hway j,one]
    split_ifs with hkj
    · subst hkj
      exact double rfl d _ b hb hPd
    · rwa [zero_add]

end Each

section Texts

theorem toupper_ne_zero {b : UInt8} (hb : b ≠ 0) : toupper b ≠ 0 := by
  unfold toupper
  split_ifs with h
  · intro hz
    have h97 : 97 ≤ b.toNat := UInt8.le_iff_toNat_le.mp h.1
    have hle : (32 : UInt8) ≤ b := UInt8.le_iff_toNat_le.mpr (le_trans (by decide) h97)
    have hval := congrArg UInt8.toNat hz
    rw [UInt8.toNat_sub_of_le _ _ hle] at hval
    have hzero : b.toNat-32 = 0 := hval
    omega
  · exact hb

/-- The client prints the whole answer. -/
theorem shown_answer (m : Message) : shown ((answer m).take bufferSize) = answer m := by
  have hlen : (answer m).length ≤ bufferSize := by simp [answer,upcase]
  rw [List.take_of_length_le hlen,shown,List.takeWhile_eq_self_iff]
  intro b hb
  obtain ⟨c,hc,rfl⟩ := List.mem_map.mp hb
  have hne : c ≠ 0 := by
    rintro rfl
    exact m.property (List.mem_of_mem_take hc)
  simpa using toupper_ne_zero hne

end Texts

/-- What is on its way to a client answers messages it has sent, and so does what it has printed. -/
structure Answered (c : Client) (u : Multiset (List UInt8)) : Prop where
  asked : ∀ b ∈ u, ∃ m ∈ c.messages.take (c.next+1), b = answer m
  numbers : c.output.map Prod.fst = List.range' 1 c.next
  answers : ∀ p ∈ c.output, ∃ m ∈ c.messages.take p.1, p.2 = answer m

/-- The only answer on its way is that to the message the client waits for. -/
structure Current (c : Client) (u : Multiset (List UInt8)) : Prop where
  sending : c.pc = .sending → u = 0
  single : u ≤ (c.messages[c.next]?).elim 0 fun m => {answer m}
  texts : c.output.map Prod.snd = (c.messages.take c.next).map answer

section Client
variable {c : Client} {u : Multiset (List UInt8)} {b : List UInt8} {m : Message}

theorem Answered.print (h : Answered c ({b}+u)) : Answered (c.print (b.take bufferSize)) u := by
  obtain ⟨m,hm,hb⟩ := h.asked b (Multiset.mem_add.mpr (.inl (Multiset.mem_singleton_self b)))
  refine ⟨?_,?_,?_⟩
  · intro b' hb'
    obtain ⟨m',hm',heq⟩ := h.asked b' (Multiset.mem_add.mpr (.inr hb'))
    exact ⟨m',List.take_subset_take_left _ (Nat.le_succ _) hm',heq⟩
  · rw [Client.print,List.map_append,h.numbers,List.range'_concat]
    simp [Nat.add_comm]
  · intro p hp
    rcases List.mem_append.mp hp with hp | hp
    · exact h.answers p hp
    · rw [List.mem_singleton.mp hp]
      exact ⟨m,hm,by rw [hb,shown_answer]⟩

theorem Current.print (h : Current c ({b}+u)) : Current (c.print (b.take bufferSize)) u := by
  obtain ⟨hsending,hsingle,htexts⟩ := h
  cases hm : c.messages[c.next]? with
  | none =>
    rw [hm] at hsingle
    simp at hsingle
  | some m =>
    rw [hm] at hsingle
    have hb : b = answer m := by
      have hmem := Multiset.mem_of_le hsingle (Multiset.mem_add.mpr (.inl (Multiset.mem_singleton_self b)))
      exact Multiset.mem_singleton.mp hmem
    have hu : u = 0 := by
      have hcard := Multiset.card_le_card hsingle
      simpa using hcard
    subst hu
    refine ⟨fun _ => rfl,Multiset.zero_le _,?_⟩
    rw [Client.print,List.map_append,htexts,hb,List.take_add_one,hm]
    simp [shown_answer]

end Client

section Run
variable {s t : State} {a : Action} {e : Event} {actions : List Action} {events : List Event}
  {messages : List (List Message)}

theorem answered_step (h : Each Answered s) (hs : step s a = some (t,e)) : Each Answered t := by
  refine (step_change hs).each h (fun _ c u m _ hm hc => ?_) (fun _ c u b _ hc => hc.print)
    (fun _ c u hc => ⟨hc.asked,hc.numbers,hc.answers⟩) (fun _ c u b hc => ?_) fun _ c u b hb hc => ?_
  · refine ⟨fun b hb => ?_,hc.numbers,hc.answers⟩
    rcases Multiset.mem_add.mp hb with hb | hb
    · refine ⟨m,?_,Multiset.mem_singleton.mp hb⟩
      exact List.mem_of_getElem? ((List.getElem?_take_of_lt (Nat.lt_succ_self c.next)).trans hm)
    · exact hc.asked b hb
  · exact ⟨fun b' hb' => hc.asked b' (Multiset.mem_add.mpr (.inr hb')),hc.numbers,hc.answers⟩
  · refine ⟨fun b' hb' => ?_,hc.numbers,hc.answers⟩
    rcases Multiset.mem_add.mp hb' with hb' | hb'
    · rw [Multiset.mem_singleton.mp hb']
      exact hc.asked b hb
    · exact hc.asked b' hb'

/-- Without copies of datagrams the answers cannot be confused. -/
theorem current_step (h : Each Current s) (hs : step s a = some (t,e)) (ha : a.kind ≠ .double) :
    Each Current t := by
  refine (step_change hs).each h (fun _ c u m hpc hm hc => ?_) (fun _ c u b _ hc => hc.print)
    (fun _ c u hc => ⟨fun hpc => ?_,hc.single,hc.texts⟩) (fun _ c u b hc => ?_)
    fun hdouble => absurd hdouble ha
  · refine ⟨fun hpc => ?_,?_,hc.texts⟩
    · cases hpc
    · rw [hc.sending hpc,add_zero]
      change _ ≤ (c.messages[c.next]?).elim 0 fun m => {answer m}
      rw [hm]
      exact le_rfl
  · cases hpc
  · refine ⟨fun hpc => ?_,(Multiset.le_add_left u {b}).trans hc.single,hc.texts⟩
    have hzero := hc.sending hpc
    simp at hzero

theorem messages_step (hs : step s a = some (t,e)) :
    t.clients.map Client.messages = s.clients.map Client.messages := by
  have hset : ∀ {k : ℕ} {c c' : Client}, s.clients[k]? = some c → t.clients = s.clients.set k c' →
      c'.messages = c.messages → t.clients.map Client.messages = s.clients.map Client.messages := by
    intro k c c' hc ht hsame
    rw [ht]
    exact Threads.map_set_of_eq hc hsame
  have hchange := step_change hs
  generalize a.kind = kind at hchange
  cases hchange with
  | carry hclients _ => rw [hclients]
  | ask hc _ _ hclients _ => exact hset hc hclients rfl
  | print hc _ hclients _ => exact hset hc hclients rfl
  | fail hc hclients _ => exact hset hc hclients rfl
  | lose hclients _ => rw [hclients]
  | double hclients _ _ => rw [hclients]

/-- A client that has not begun. -/
theorem each_start {P : Client → Multiset (List UInt8) → Prop}
    (hP : ∀ ms ∈ messages, P (startClient ms) 0) : Each P (start messages) := by
  intro k c hc
  obtain ⟨ms,hms,rfl⟩ := List.mem_map.mp (List.mem_of_getElem? hc)
  exact hP ms hms

theorem answered_start : Each Answered (start messages) :=
  each_start fun _ _ => ⟨fun b hb => absurd hb (Multiset.notMem_zero b),rfl,fun p hp => by cases hp⟩

theorem current_start : Each Current (start messages) :=
  each_start fun _ _ => ⟨fun _ => rfl,Multiset.zero_le _,rfl⟩

/-- The messages of the clients are those they were started with. -/
theorem messages_run (hrun : Machine.run step s actions = some (t,events)) :
    t.clients.map Client.messages = s.clients.map Client.messages := by
  induction actions generalizing s events with
  | nil =>
    cases hrun
    rfl
  | cons a actions ih =>
    obtain ⟨u,e,os,hs,hrest,rfl⟩ := Machine.run_cons_eq_some.mp hrun
    exact (ih hrest).trans (messages_step hs)

theorem answered_run (h : Each Answered s) (hrun : Machine.run step s actions = some (t,events)) :
    Each Answered t := by
  induction actions generalizing s events with
  | nil =>
    cases hrun
    exact h
  | cons a actions ih =>
    obtain ⟨u,e,os,hs,hrest,rfl⟩ := Machine.run_cons_eq_some.mp hrun
    exact ih (answered_step h hs) hrest

theorem current_run (h : Each Current s) (hrun : Machine.run step s actions = some (t,events))
    (hsingle : ∀ a ∈ actions, a.kind ≠ .double) : Each Current t := by
  induction actions generalizing s events with
  | nil =>
    cases hrun
    exact h
  | cons a actions ih =>
    obtain ⟨u,e,os,hs,hrest,rfl⟩ := Machine.run_cons_eq_some.mp hrun
    have ha := hsingle a List.mem_cons_self
    exact ih (current_step h hs ha) hrest fun b hb => hsingle b (List.mem_cons_of_mem a hb)

end Run

/-- Whatever the network does, the responses a client prints are numbered from one and each answers
a message the client has sent before; as long as no datagram is doubled, the `i`-th one answers the
`i`-th message. -/
theorem responses_answer (messages : List (List Message)) (actions : List Action) (s : State)
    (events : List Event) (hrun : Machine.run step (start messages) actions = some (s,events)) :
    ∀ (k : ℕ) c, s.clients[k]? = some c → messages[k]? = some c.messages ∧
      c.output.map Prod.fst = List.range' 1 c.next ∧
      (∀ p ∈ c.output, ∃ m ∈ c.messages.take p.1, p.2 = answer m) ∧
      ((∀ a ∈ actions, a.kind ≠ .double) →
        c.output.map Prod.snd = (c.messages.take c.next).map answer) := by
  intro k c hc
  have hanswered := answered_run answered_start hrun k c hc
  refine ⟨?_,hanswered.numbers,hanswered.answers,fun hsingle => ?_⟩
  · have hmessages := congrArg (fun l : List (List Message) => l[k]?) (messages_run hrun)
    simpa [hc,start,startClient] using hmessages.symm
  · exact (current_run current_start hrun hsingle k c hc).texts

def messageA : Message := ⟨[97],by decide⟩

def messageB : Message := ⟨[98],by decide⟩

/-- The first request is doubled, and the copy is answered in place of the second one. -/
def doubledRequest : List Action :=
  [.clientSend 0,.double .requests 0,.serverReceive 0,.serverSend,.clientReceive 0 0,.clientSend 0,
    .serverReceive 0,.serverSend,.clientReceive 0 0]

theorem responses_answer_doubled : ∃ s events c,
    Machine.run step (start [[messageA,messageB]]) doubledRequest = some (s,events) ∧
    s.clients[0]? = some c ∧ c.output = [(1,[65]),(2,[65])] ∧
    c.output.map Prod.fst = List.range' 1 c.next ∧
    ∀ p ∈ c.output, ∃ m ∈ c.messages.take p.1, p.2 = answer m := by
  refine ⟨_,_,_,rfl,rfl,by decide,?_⟩
  obtain ⟨_,hnumbers,hanswers,_⟩ :=
    responses_answer [[messageA,messageB]] doubledRequest _ _ rfl 0 _ rfl
  exact ⟨hnumbers,hanswers⟩

end CStudy.UpcaseEcho
