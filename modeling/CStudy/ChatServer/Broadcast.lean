import CStudy.ChatServer.Membership

/-! What the server sends. A chunk that `recv` returns for one client is sent once to each of the
others in `master`, also to those that were accepted earlier in the same pass. So each client is
handed what the others say, in the order in which the server hears it. -/
namespace CStudy.ChatServer
open CStudy.Foundation

def handedStep (fd : ℕ) (chunks : List (List UInt8)) : Event → List (List UInt8)
  | .accepted k => if k = fd then [] else chunks
  | .sent k chunk => if k = fd then chunks++[chunk] else chunks
  | _ => chunks

/-- The chunks `send` has been called with for this descriptor, since it was last accepted. -/
def handed (fd : ℕ) (events : List Event) : List (List UInt8) := events.foldl (handedStep fd) []

/-- The clients, and the chunks of the others than `fd`. -/
def heardStep (fd : ℕ) (heard : Finset ℕ × List (List UInt8)) (event : Event) :
    Finset ℕ × List (List UInt8) :=
  (memberStep heard.1 event,
    match event with
    | .accepted k => if k = fd then [] else heard.2
    | .received k chunk => if fd ∈ heard.1 ∧ fd ≠ k then heard.2++[chunk] else heard.2
    | _ => heard.2)

/-- The chunks `recv` has returned for other descriptors, since this one was last accepted and while
it was not dropped. -/
def heard (fd : ℕ) (events : List Event) : List (List UInt8) :=
  (events.foldl (heardStep fd) (∅,[])).2

section Folds
variable {fd : ℕ} {events new : List Event} {chunk : List UInt8}

theorem handed_append : handed fd (events++new) = new.foldl (handedStep fd) (handed fd events) :=
  List.foldl_append

theorem foldl_heardStep_fst (state : Finset ℕ × List (List UInt8)) :
    (events.foldl (heardStep fd) state).1 = events.foldl memberStep state.1 := by
  induction events generalizing state with
  | nil => rfl
  | cons e events ih => exact ih (heardStep fd state e)

theorem heard_append : heard fd (events++new) =
    (new.foldl (heardStep fd) (members events,heard fd events)).2 := by
  have hpair : events.foldl (heardStep fd) (∅,[]) = (members events,heard fd events) :=
    Prod.ext (foldl_heardStep_fst (∅,[])) rfl
  rw [heard,List.foldl_append,hpair]

theorem foldl_handedStep_sent_of_notMem {js : List ℕ} (h : fd ∉ js) (chunks : List (List UInt8)) :
    (js.map fun j => Event.sent j chunk).foldl (handedStep fd) chunks = chunks := by
  induction js with
  | nil => rfl
  | cons j js ih =>
    rw [List.mem_cons,not_or] at h
    rw [List.map_cons,List.foldl_cons,handedStep,if_neg (Ne.symm h.1)]
    exact ih h.2

theorem foldl_handedStep_sent {js : List ℕ} (hnodup : js.Nodup) (chunks : List (List UInt8)) :
    (js.map fun j => Event.sent j chunk).foldl (handedStep fd) chunks =
      if fd ∈ js then chunks++[chunk] else chunks := by
  split_ifs with hmem
  · obtain ⟨before,after,rfl⟩ := List.append_of_mem hmem
    obtain ⟨_,hafter,hapart⟩ := List.nodup_append.mp hnodup
    have hbefore : fd ∉ before := fun h => hapart fd h fd List.mem_cons_self rfl
    rw [List.map_append,List.map_cons,List.foldl_append,List.foldl_cons,
      foldl_handedStep_sent_of_notMem hbefore,handedStep,if_pos rfl,
      foldl_handedStep_sent_of_notMem (List.nodup_cons.mp hafter).1]
  · exact foldl_handedStep_sent_of_notMem hmem chunks

end Folds

section Recipients
variable {serverSock i : ℕ} {events new : List Event} {s t : Server} {answer : Answer}

theorem nodup_recipients : (s.recipients i).Nodup := (List.nodup_range').filter _

theorem Sound.mem_members (h : Sound serverSock events s) {fd : ℕ} :
    fd ∈ members events ↔ fd ∈ s.master ∧ fd ≠ serverSock := by
  rw [h.master,Finset.mem_insert]
  constructor
  · intro hfd
    refine ⟨.inr hfd,?_⟩
    rintro rfl
    exact h.apart hfd
  · exact fun hfd => hfd.1.resolve_left hfd.2

/-- `max_fd` bounds the loop over `j`, but it leaves out no client. -/
theorem Sound.mem_recipients (h : Sound serverSock events s) {fd : ℕ} :
    fd ∈ s.recipients i ↔ fd ∈ members events ∧ fd ≠ i := by
  rw [Server.recipients,List.mem_filter,decide_eq_true_iff,h.listening,not_or,h.mem_members,
    and_assoc]
  refine ⟨fun hfd => hfd.2,fun hfd => ⟨?_,hfd⟩⟩
  have hpositive := h.positive fd (h.mem_members.mpr ⟨hfd.1,hfd.2.1⟩)
  have hbound := h.bound fd hfd.1
  exact List.mem_range'_1.mpr ⟨hpositive,by omega⟩

theorem count_sent {fd : ℕ} {chunk bytes : List UInt8} {js : List ℕ} (hnodup : js.Nodup) :
    (js.map fun j => Event.sent j chunk).count (.sent fd bytes) =
      if fd ∈ js ∧ bytes = chunk then 1 else 0 := by
  have hinj : Function.Injective fun j => Event.sent j chunk := by
    intro j k h
    cases h
    rfl
  rw [(hnodup.map hinj).count]
  congr 1
  rw [List.mem_map,eq_iff_iff]
  constructor
  · rintro ⟨j,hj,he⟩
    cases he
    exact ⟨hj,rfl⟩
  · rintro ⟨hj,rfl⟩
    exact ⟨fd,hj,rfl⟩

/-- In the pass for `i`, what is sent is the chunk, once to each client but `i`. -/
theorem Sound.count_change {chunk : List UInt8} (h : Sound serverSock events s)
    (hpos : s.position = .scan i) (hc : Change s (.recv chunk) t new) (fd : ℕ) (bytes : List UInt8) :
    new.count (.sent fd bytes) =
      if fd ∈ s.master ∧ fd ≠ serverSock ∧ fd ≠ i ∧ bytes = chunk then 1 else 0 := by
  cases hc with
  | @recv k _ hk _ _ =>
    cases hpos.symm.trans hk
    rw [List.count_cons_of_ne (by rintro ⟨⟩),count_sent nodup_recipients]
    congr 1
    rw [h.mem_recipients,h.mem_members,and_assoc,and_assoc]

end Recipients

section Delivery
variable {serverSock fd : ℕ} {events new : List Event} {s t : Server} {answer : Answer}

theorem Sound.handed_change (h : Sound serverSock events s) (hc : Change s answer t new)
    (heq : handed fd events = heard fd events) :
    handed fd (events++new) = heard fd (events++new) := by
  rw [handed_append,heard_append,heq]
  cases hc with
  | finish _ => rfl
  | skip _ _ => rfl
  | select _ _ => rfl
  | selectFailed _ => rfl
  | accept _ _ _ => rfl
  | acceptFailed _ => rfl
  | recv _ _ _ =>
    rw [List.foldl_cons,List.foldl_cons,foldl_sent (heardStep fd) _ _ fun _ => rfl,
      foldl_handedStep_sent nodup_recipients]
    simp only [h.mem_recipients,handedStep,heardStep]
  | recvFailed _ _ _ => rfl

theorem handed_run {past replies : List (List Event)} {answers : List Answer}
    (hs : Sound serverSock past.flatten s) (h : handed fd past.flatten = heard fd past.flatten)
    (hrun : Machine.run step s answers = some (t,replies)) :
    handed fd (past++replies).flatten = heard fd (past++replies).flatten := by
  -- the descriptors of the clients are needed for each step
  refine (Machine.run_invariant (fun past s => Sound serverSock past.flatten s ∧
    handed fd past.flatten = heard fd past.flatten) ?_ ⟨hs,h⟩ hrun).2
  rintro past s answer t new ⟨hs,h⟩ hstep
  refine ⟨hs.step hstep,?_⟩
  rw [List.flatten_concat]
  exact hs.handed_change (change_of_step hstep) h

end Delivery

/-- Two clients connect and get the descriptors 4 and 5, and the first says something. -/
def chatting : List Answer :=
  [.select {3},.noCall,.noCall,.accept 4,.noCall,.noCall,
    .select {3},.noCall,.noCall,.accept 5,.noCall,.noCall,.noCall,
    .select {4,5},.noCall,.noCall,.noCall,.recv [104,105]]

end CStudy.ChatServer
