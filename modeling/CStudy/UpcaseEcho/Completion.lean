import CStudy.UpcaseEcho.Answers
import CStudy.Foundation.Progress

/-! The echo over a network that loses nothing, with calls that do not fail. Each step brings one
message closer to its answer, and nobody waits for an answer that is not on its way: in the end every
client has printed all of its answers. -/
namespace CStudy.UpcaseEcho
open CStudy.Foundation

/-- No call fails, and the network only carries. -/
def Action.isReliable : Action → Bool
  | .serverReceive _ => true
  | .serverSend => true
  | .clientSend _ => true
  | .clientReceive _ _ => true
  | _ => false

/-- The steps for the messages that a client has yet to send. -/
def Client.remaining (c : Client) : ℕ :=
  match c.pc with
  | .sending => 4*(c.messages.length-c.next)
  | .receiving => 4*(c.messages.length-(c.next+1))
  | .exited => 0

def ServerPc.remaining : ServerPc → ℕ
  | .sending _ _ => 2
  | _ => 0

/-- The steps that are left. -/
def load (s : State) : ℕ :=
  (s.clients.map Client.remaining).sum+3*s.requests.length+s.server.remaining+s.responses.length

/-- A client that is not done sends, or waits for an answer that is on its way. -/
structure Waiting (c : Client) (u : Multiset (List UInt8)) : Prop where
  current : Current c u
  waits : c.pc = .receiving → Multiset.card u = 1
  goesOn : c.pc = .sending → c.next < c.messages.length
  ends : c.pc = .exited → c.next = c.messages.length

/-- All clients are served, and the server has not given up. -/
structure Served (s : State) : Prop where
  clients : Each Waiting s
  server : s.server ≠ .exited

section Step
variable {s t : State} {a : Action} {e : Event} {k : ℕ} {c : Client} {u : Multiset (List UInt8)}
  {b : List UInt8}

theorem Current.next_lt (h : Current c ({b}+u)) : c.next < c.messages.length := by
  by_contra hge
  have hnone : c.messages[c.next]? = none := List.getElem?_eq_none (not_lt.mp hge)
  have hsingle := h.single
  rw [hnone] at hsingle
  simp at hsingle

theorem Waiting.print (h : Waiting c ({b}+u)) : Waiting (c.print (b.take bufferSize)) u := by
  have hlt := h.current.next_lt
  refine ⟨h.current.print,fun hpc => ?_,fun hpc => ?_,fun hpc => ?_⟩
  · simp only [Client.print] at hpc
    split_ifs at hpc
  · simp only [Client.print] at hpc ⊢
    split_ifs at hpc
    assumption
  · simp only [Client.print] at hpc ⊢
    split_ifs at hpc
    omega

theorem kind_of_isReliable (ha : a.isReliable = true) : a.kind = .carry ∨ a.kind = .ask ∨
    a.kind = .print := by
  cases a with
  | serverReceive i => exact .inl rfl
  | serverSend => exact .inl rfl
  | clientSend k => exact .inr (.inl rfl)
  | clientReceive k i => exact .inr (.inr rfl)
  | _ => cases ha

theorem waiting_step (h : Each Waiting s) (hs : step s a = some (t,e)) (ha : a.isReliable = true) :
    Each Waiting t := by
  have hkind := kind_of_isReliable ha
  refine (step_change hs).each h (fun _ c u m hpc hm hc => ?_) (fun _ c u b _ hc => hc.print)
    (fun hfail => ?_) (fun hlose => ?_) fun hdouble => ?_
  · refine ⟨?_,fun _ => ?_,?_,?_⟩
    · refine ⟨fun h => (by cases h),?_,hc.current.texts⟩
      rw [hc.current.sending hpc,add_zero]
      change _ ≤ (c.messages[c.next]?).elim 0 fun m => {answer m}
      rw [hm]
      exact le_rfl
    · rw [hc.current.sending hpc,add_zero,Multiset.card_singleton]
    · intro h; cases h
    · intro h; cases h
  · simp [hfail] at hkind
  · simp [hlose] at hkind
  · simp [hdouble] at hkind

theorem server_step (h : s.server ≠ .exited) (hs : step s a = some (t,e))
    (ha : a.isReliable = true) : t.server ≠ .exited := by
  cases a with
  | serverReceive i =>
    simp only [step,serverReceive] at hs
    split at hs
    · cases hs
      simp
    · cases hs
  | serverSend =>
    simp only [step,serverSend] at hs
    split at hs
    · cases hs
      simp
    · cases hs
  | clientSend k =>
    simp only [step,clientSend] at hs
    split at hs
    · split at hs
      · cases hs
        exact h
      · cases hs
    · cases hs
  | clientReceive k i =>
    simp only [step,clientReceive] at hs
    split at hs
    · split_ifs at hs
      cases hs
      exact h
    · cases hs
  | _ => cases ha

theorem load_step (hs : step s a = some (t,e)) (ha : a.isReliable = true) :
    load t < load s := by
  cases a with
  | serverReceive i =>
    simp only [step,serverReceive] at hs
    split at hs
    · next d hserver hd =>
      cases hs
      have hlen := Datagram.length_eraseIdx_add hd
      simp only [load,hserver,ServerPc.remaining]
      omega
    · cases hs
  | serverSend =>
    simp only [step,serverSend] at hs
    split at hs
    · next client buffer hserver =>
      cases hs
      simp only [load,hserver,ServerPc.remaining,List.length_append,List.length_singleton]
      omega
    · cases hs
  | clientSend k =>
    simp only [step,clientSend] at hs
    split at hs
    · next c hc =>
      split at hs
      · next m hpc hm =>
        cases hs
        have hlt := (List.getElem?_eq_some_iff.mp hm).1
        have hsum := Threads.sum_set (y := c.move .receiving) Client.remaining hc
        have hbefore : c.remaining = 4*(c.messages.length-c.next) := by
          rw [Client.remaining,hpc]
        have hafter : (c.move .receiving).remaining = 4*(c.messages.length-(c.next+1)) := rfl
        simp only [load,State.setClient,List.length_append,List.length_singleton]
        omega
      · cases hs
    · cases hs
  | clientReceive k i =>
    simp only [step,clientReceive] at hs
    split at hs
    · next c d hc hd =>
      split_ifs at hs with hk
      cases hs
      have hlen := Datagram.length_eraseIdx_add hd
      have hsum := Threads.sum_set (y := c.print (d.bytes.take bufferSize)) Client.remaining hc
      have hbefore : c.remaining = 4*(c.messages.length-(c.next+1)) := by
        rw [Client.remaining,hk.1]
      have hafter : (c.print (d.bytes.take bufferSize)).remaining ≤
          4*(c.messages.length-(c.next+1)) := by
        simp only [Client.remaining,Client.print]
        split_ifs <;> simp
      simp only [load,State.setClient]
      omega
    · cases hs
  | _ => cases ha

theorem served_lowers : Machine.Lowers step Served (fun a => a.isReliable = true) load :=
  fun _ _ _ _ h ha hs =>
    ⟨⟨waiting_step h.clients hs ha,server_step h.server hs ha⟩,load_step hs ha⟩

/-- An answer on its way can be carried on, or be printed. -/
theorem Served.receiving_not_resting (h : Served s) (hc : s.clients[k]? = some c)
    (hpc : c.pc = .receiving) : ∃ a, a.isReliable = true ∧ step s a ≠ none := by
  cases hserver : s.server with
  | exited => exact absurd hserver h.server
  | sending client buffer => exact ⟨.serverSend,rfl,by simp [step,serverSend,hserver]⟩
  | receiving =>
    cases hrequests : s.requests with
    | cons d rest => exact ⟨.serverReceive 0,rfl,by simp [step,serverReceive,hserver,hrequests]⟩
    | nil =>
      have hcard := (h.clients k c hc).waits hpc
      have hbound : Datagram.bound k s.responses ≠ 0 := by
        intro hzero
        simp [underway,hserver,hrequests,hzero,ServerPc.own] at hcard
      obtain ⟨i,d,hd,hport⟩ := Datagram.exists_of_bound hbound
      exact ⟨.clientReceive k i,rfl,by simp [step,clientReceive,hc,hd,hpc,hport]⟩

/-- At rest every client has come to its end. -/
theorem Served.exited (h : Served s) (hc : s.clients[k]? = some c)
    (hrest : Machine.Resting step (fun a => a.isReliable = true) s) : c.pc = .exited := by
  cases hpc : c.pc with
  | exited => rfl
  | receiving =>
    obtain ⟨a,ha,hstep⟩ := h.receiving_not_resting hc hpc
    exact absurd (hrest a ha) hstep
  | sending =>
    have hlt := (h.clients k c hc).goesOn hpc
    have hsend : step s (.clientSend k) ≠ none := by
      simp [step,clientSend,hc,hpc,List.getElem?_eq_getElem hlt]
    exact absurd (hrest (.clientSend k) rfl) hsend

end Step

theorem served_start (messages : List (List Message)) : Served (start messages) := by
  refine ⟨each_start fun ms _ => ⟨⟨fun _ => rfl,Multiset.zero_le _,rfl⟩,?_,?_,?_⟩,by simp [start]⟩
  · intro hpc
    simp only [startClient] at hpc
    split_ifs at hpc
  · intro hpc
    simp only [startClient] at hpc ⊢
    split_ifs at hpc with hms
    exact List.length_pos_iff.mpr hms
  · intro hpc
    simp only [startClient] at hpc ⊢
    split_ifs at hpc with hms
    rw [hms]
    rfl

theorem load_start (messages : List (List Message)) :
    load (start messages) = 4*(messages.map List.length).sum := by
  have hclient : Client.remaining ∘ startClient = fun ms => 4*ms.length := by
    funext ms
    by_cases hms : ms = [] <;> simp [Client.remaining,startClient,hms]
  simp only [load,start,ServerPc.remaining,List.map_map,hclient,List.length_nil,List.sum_map_mul_left]
  rfl

/-- Over a network that loses and doubles nothing, and with calls that do not fail, a run has at most
four steps for each message; it can be carried on until no step is left, and then every client has
printed the answers to all of its messages, in order. -/
theorem echo_completes (messages : List (List Message)) (actions : List Action) (s : State)
    (events : List Event) (hreliable : ∀ a ∈ actions, a.isReliable = true)
    (hrun : Machine.run step (start messages) actions = some (s,events)) :
    actions.length ≤ 4*(messages.map List.length).sum ∧
      (Machine.Resting step (fun a => a.isReliable = true) s → ∀ (k : ℕ) ms, messages[k]? = some ms →
        ∃ c, s.clients[k]? = some c ∧ c.pc = .exited ∧
          c.output = (List.range' 1 ms.length).zip (ms.map answer)) ∧
      ∃ more t events', (∀ a ∈ more, a.isReliable = true) ∧
        Machine.run step s more = some (t,events') ∧
        Machine.Resting step (fun a => a.isReliable = true) t := by
  obtain ⟨hserved,hle⟩ := served_lowers.run (served_start messages) hreliable hrun
  refine ⟨?_,fun hrest k ms hms => ?_,served_lowers.exists_resting hserved⟩
  · rw [load_start] at hle
    omega
  · have hmessages := congrArg (fun l : List (List Message) => l[k]?) (messages_run hrun)
    have hget : (start messages).clients[k]? = some (startClient ms) := by simp [start,hms]
    simp only [List.getElem?_map,hget,Option.map_some,Option.map_eq_some_iff] at hmessages
    obtain ⟨c,hc,hcms⟩ := hmessages
    have hsame : c.messages = ms := hcms
    have hpc := hserved.exited hc hrest
    have hwaiting := hserved.clients k c hc
    have hnumbers := (answered_run answered_start hrun k c hc).numbers
    have htexts := hwaiting.current.texts
    have hnext := hwaiting.ends hpc
    rw [hnext,hsame] at hnumbers htexts
    rw [List.take_length] at htexts
    refine ⟨c,hc,hpc,?_⟩
    rw [← hnumbers,← htexts,← List.unzip_fst,← List.unzip_snd,List.zip_unzip]

/-- Two clients, the requests of which are served in the other order. -/
theorem echo_completes_twoClients : ∃ s events,
    Machine.run step (start [[messageA],[messageB]]) [.clientSend 0,.clientSend 1,.serverReceive 1,
      .serverSend,.serverReceive 0,.clientReceive 1 0,.serverSend,.clientReceive 0 0] =
        some (s,events) ∧
    8 ≤ 4*([[messageA],[messageB]].map List.length).sum ∧
    ∃ more t events', (∀ a ∈ more, a.isReliable = true) ∧
      Machine.run step s more = some (t,events') ∧
      Machine.Resting step (fun a => a.isReliable = true) t := by
  refine ⟨_,_,rfl,?_⟩
  have h := echo_completes [[messageA],[messageB]] [.clientSend 0,.clientSend 1,.serverReceive 1,
      .serverSend,.serverReceive 0,.clientReceive 1 0,.serverSend,.clientReceive 0 0] _ _ (by decide) rfl
  exact ⟨h.1,h.2.2⟩

end CStudy.UpcaseEcho
