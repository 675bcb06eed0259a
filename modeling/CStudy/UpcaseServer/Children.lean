import CStudy.UpcaseServer.Preforked

/-! What the children of `prefork_server01` do with the connections. Each connection belongs to the
child that has accepted it, and ends with it: when the child goes on to the next one, or with the
child. A child that has ended is not replaced. -/
namespace CStudy.UpcaseServer.Preforked
open CStudy.Foundation

namespace Event

def accepted? : Event → Option (ℕ × ℕ)
  | .accepted w i => some (w,i)
  | _ => none

/-- The child and the connection of a step with a connection. -/
def serves? : Event → Option (ℕ × ℕ)
  | .accepted w i => some (w,i)
  | .answered w i _ _ => some (w,i)
  | .closed w i => some (w,i)
  | .killed w (some i) => some (w,i)
  | _ => none

/-- What a call for the `i`th connection has returned. -/
def answer? (i : ℕ) : Event → Option Answer
  | .answered _ j answer _ => if j = i then some answer else none
  | _ => none

def isClosed : Event → Bool
  | .closed _ _ => true
  | _ => false

/-- A connection ends since its child does. -/
def cutsOff : Event → Bool
  | .answered _ _ .failed _ => true
  | .answered _ _ .sendFailed _ => true
  | .killed _ (some _) => true
  | _ => false

def endsChild : Event → Bool
  | .notAccepted _ _ => true
  | .killed _ none => true
  | e => e.cutsOff

end Event

def State.connectionOf (s : State) (i : ℕ) : Connection := s.connections[i]?.getD start

/-- Each connection is where `child` alone is after the answers to its own calls. -/
def Isolated (past : List Event) (s : State) : Prop :=
  Machine.Apart child.step start Event.answer? past s.connectionOf

/-- Whatever has been done for a connection, the child that has accepted it has done. -/
structure Owned (past : List Event) (s : State) : Prop where
  accepts : (past.filterMap Event.accepted?).map Prod.snd = List.range s.connections.length
  serving : ∀ w i, s.children[w]? = some (.serving i) → (w,i) ∈ past.filterMap Event.accepted?
  serves : ∀ e ∈ past, ∀ p, e.serves? = some p → p ∈ past.filterMap Event.accepted?

/-- How many children and connections there are, and what has become of them. -/
structure Counted (past : List Event) (s : State) : Prop where
  running : s.children.countP ChildPosition.isRunning+past.countP Event.endsChild =
    s.children.length
  connections : s.connections.length = s.children.countP ChildPosition.isServing+
    past.countP Event.isClosed+past.countP Event.cutsOff
  forking : s.parent = .forking → s.children.length < numChildren
  atMost : s.children.length ≤ numChildren
  waiting : s.parent = .waiting → s.children.length = numChildren
  returned : s.parent = .returned 0 →
    s.children.length = numChildren ∧ ∀ x ∈ s.children, x = .waitedFor

section Steps
variable {s t : State} {w i : ℕ} {x y : ChildPosition} {e : Event} {past : List Event}
  {c d : Connection} {answer : Answer} {messages : List String}

theorem connectionOf_set (hc : s.connections[i]? = some c) (j : ℕ) :
    (s.answered w i d).connectionOf j = if i = j then d else s.connectionOf j := by
  obtain ⟨hi,_⟩ := List.getElem?_eq_some_iff.mp hc
  by_cases hij : i = j
  · subst hij
    simp [State.connectionOf,State.answered,hi]
  · simp [State.connectionOf,State.answered,hij]

theorem Isolated.change (h : Isolated past s) (hc : Change s e t) : Isolated (past++[e]) t := by
  cases hc with
  | forked _ => exact h.idle (fun _ => rfl) fun _ => rfl
  | notForked _ => exact h.idle (fun _ => rfl) fun _ => rfl
  | notAccepted _ => exact h.idle (fun _ => rfl) fun _ => rfl
  | closed _ _ _ => exact h.idle (fun _ => rfl) fun _ => rfl
  | killed _ _ => exact h.idle (fun _ => rfl) fun _ => rfl
  | ended _ _ => exact h.idle (fun _ => rfl) fun _ => rfl
  | waited _ _ => exact h.idle (fun _ => rfl) fun _ => rfl
  | accepted _ =>
    refine h.idle (fun _ => rfl) fun i => ?_
    simp only [State.connectionOf,State.accepted,List.getElem?_append]
    split_ifs with hi
    · rfl
    · rw [List.getElem?_eq_none (Nat.le_of_not_lt hi)]
      cases i-s.connections.length <;> rfl
  | @answered w i c d answer messages _ hconn hanswer =>
    have hi : s.connectionOf i = c := by simp [State.connectionOf,hconn]
    refine h.call (if_pos rfl) (fun j hj => ⟨if_neg (Ne.symm hj),?_⟩) (o := messages) ?_
    · rw [connectionOf_set hconn,if_neg (Ne.symm hj)]
    · rw [hi,connectionOf_set hconn,if_pos rfl,hanswer]

/-- A call that is not answered by an error leaves the child in its loop. -/
theorem exited_iff (h : child.step c answer = some (d,messages)) :
    d.position = .exited ↔ answer = .failed ∨ answer = .sendFailed := by
  cases answer with
  | received chunk =>
    simp only [Server.step] at h
    split_ifs at h
    cases h
    simp [Connection.receive]
  | ended =>
    simp only [Server.step] at h
    split_ifs at h
    cases h
    simp [Connection.move]
  | interrupted =>
    simp only [Server.step] at h
    split_ifs at h
    cases h
    simp [Connection.move,child,Reaction.position]
  | failed =>
    simp only [Server.step] at h
    split_ifs at h
    cases h
    simp [Connection.move,child,Reaction.position]
  | sent count =>
    simp only [Server.step] at h
    split at h
    · split_ifs at h
      cases h
      simp [Connection.send]
    · cases h
  | sendFailed =>
    simp only [Server.step] at h
    split at h
    · cases h
      simp [Connection.move,child,Reaction.position]
    · cases h

theorem cutsOff_answered (h : child.step c answer = some (d,messages)) :
    (Event.answered w i answer messages).cutsOff = decide (d.position = .exited) := by
  have hiff := exited_iff h
  cases answer <;> simp_all [Event.cutsOff]

/-- Children take up connections only by accepting them. -/
theorem Owned.keep (h : Owned past s) (hlength : t.connections.length = s.connections.length)
    (hserving : ∀ w i : ℕ, t.children[w]? = some (.serving i) → s.children[w]? = some (.serving i))
    (haccepted : e.accepted? = none)
    (hserves : ∀ w i : ℕ, e.serves? = some (w,i) → s.children[w]? = some (.serving i)) :
    Owned (past++[e]) t := by
  have hsame : (past++[e]).filterMap Event.accepted? = past.filterMap Event.accepted? := by
    rw [List.filterMap_append,List.filterMap_cons_none haccepted,List.filterMap_nil,List.append_nil]
  refine ⟨?_,fun w i hi => ?_,fun e' he' p hp => ?_⟩
  · rw [hsame,hlength]
    exact h.accepts
  · rw [hsame]
    exact h.serving w i (hserving w i hi)
  · rw [hsame]
    rcases List.mem_append.mp he' with hold | hnew
    · exact h.serves e' hold p hp
    · obtain rfl := List.mem_singleton.mp hnew
      exact h.serving p.1 p.2 (hserves p.1 p.2 hp)

/-- Where a child is that goes on to `x` instead, which has no connection. -/
theorem serving_of_set (hx : x.client? = none) {v j : ℕ}
    (h : (s.children.set w x)[v]? = some (.serving j)) : s.children[v]? = some (.serving j) := by
  by_cases hw : w = v
  · subst hw
    rw [List.getElem?_set_self'] at h
    obtain ⟨_,_,rfl⟩ := Option.map_eq_some_iff.mp h
    cases hx
  · rwa [List.getElem?_set_ne hw] at h

theorem Owned.change (h : Owned past s) (hc : Change s e t) : Owned (past++[e]) t := by
  cases hc with
  | forked _ =>
    refine h.keep rfl (fun w i hi => ?_) rfl (by rintro _ _ ⟨⟩)
    rw [State.forked,List.getElem?_append] at hi
    split_ifs at hi with hw
    · exact hi
    · simp [List.getElem?_singleton] at hi
  | notForked _ => exact h.keep rfl (fun _ _ hi => hi) rfl (by rintro _ _ ⟨⟩)
  | ended _ _ => exact h.keep rfl (fun _ _ hi => hi) rfl (by rintro _ _ ⟨⟩)
  | waited _ _ => exact h.keep rfl (fun _ _ => serving_of_set rfl) rfl (by rintro _ _ ⟨⟩)
  | notAccepted _ => exact h.keep rfl (fun _ _ => serving_of_set rfl) rfl (by rintro _ _ ⟨⟩)
  | closed hchild _ _ =>
    refine h.keep rfl (fun _ _ => serving_of_set rfl) rfl ?_
    rintro _ _ ⟨⟩
    exact hchild
  | @killed w x hchild _ =>
    refine h.keep rfl (fun _ _ => serving_of_set rfl) rfl (fun v i hi => ?_)
    cases x <;> cases hi
    exact hchild
  | @answered w i c d answer messages hchild _ _ =>
    refine h.keep (by simp [State.answered]) (fun v j hj => ?_) rfl ?_
    · rw [State.answered] at hj
      split_ifs at hj
      · exact serving_of_set rfl hj
      · by_cases hw : w = v
        · subst hw
          rw [List.getElem?_set_self',hchild] at hj
          cases hj
          exact hchild
        · rwa [List.getElem?_set_ne hw] at hj
    · rintro _ _ ⟨⟩
      exact hchild
  | @accepted w hchild =>
    have hsame : (past++[Event.accepted w s.connections.length]).filterMap Event.accepted? =
        past.filterMap Event.accepted?++[(w,s.connections.length)] := by
      rw [List.filterMap_append]
      rfl
    refine ⟨?_,fun v i hi => ?_,fun e' he' p hp => ?_⟩
    · rw [hsame,List.map_append,h.accepts,State.accepted,List.length_append,List.length_singleton,
        List.range_succ]
      rfl
    · rw [hsame,List.mem_append,List.mem_singleton]
      by_cases hw : w = v
      · subst hw
        rw [State.accepted,List.getElem?_set_self',hchild] at hi
        cases hi
        exact .inr rfl
      · rw [State.accepted,List.getElem?_set_ne hw] at hi
        exact .inl (h.serving v i hi)
    · rw [hsame,List.mem_append,List.mem_singleton]
      rcases List.mem_append.mp he' with hold | hnew
      · exact .inl (h.serves e' hold p hp)
      · obtain rfl := List.mem_singleton.mp hnew
        cases hp
        exact .inr rfl

/-- A child that is in its loops takes a step. -/
theorem Counted.move (h : Counted past s) (hx : s.children[w]? = some x)
    (hrunning : x.isRunning = true) {k : ℕ} (hparent : t.parent = s.parent)
    (hchildren : t.children = s.children.set w y)
    (hconnections : t.connections.length = s.connections.length+k)
    (hends : (if y.isRunning then 1 else 0)+[e].countP Event.endsChild = 1)
    (hserving : k+(if x.isServing then 1 else 0) =
      (if y.isServing then 1 else 0)+[e].countP Event.isClosed+[e].countP Event.cutsOff) :
    Counted (past++[e]) t := by
  have hrun := Threads.countP_set (y := y) ChildPosition.isRunning hx
  have hserve := Threads.countP_set (y := y) ChildPosition.isServing hx
  rw [if_pos hrunning] at hrun
  have hlength : t.children.length = s.children.length := by rw [hchildren,List.length_set]
  refine ⟨?_,?_,?_,?_,?_,fun hret => ?_⟩
  · have := h.running
    rw [List.countP_append,hlength,hchildren]
    omega
  · have := h.connections
    rw [List.countP_append,List.countP_append,hconnections,hchildren]
    omega
  · rw [hparent,hlength]
    exact h.forking
  · rw [hlength]
    exact h.atMost
  · rw [hparent,hlength]
    exact h.waiting
  · -- no child is left by then
    obtain rfl := (h.returned (hparent ▸ hret)).2 x (List.mem_of_getElem? hx)
    cases hrunning

theorem Counted.change (h : Counted past s) (hc : Change s e t) : Counted (past++[e]) t := by
  cases hc with
  | forked hparent =>
    have hlt := h.forking hparent
    refine ⟨?_,?_,fun hforking => ?_,?_,fun hwaiting => ?_,fun hret => ?_⟩
    · have := h.running
      simp [State.forked,ChildPosition.isRunning,Event.endsChild,Event.cutsOff]
      omega
    · have := h.connections
      simp [State.forked,ChildPosition.isServing,ChildPosition.client?,Event.isClosed,Event.cutsOff]
      omega
    · simp only [State.forked] at hforking
      split_ifs at hforking with hmore
      simpa [State.forked] using hmore
    · simpa [State.forked] using hlt
    · simp only [State.forked] at hwaiting
      split_ifs at hwaiting with hmore
      simp only [State.forked,List.length_append,List.length_singleton]
      omega
    · simp only [State.forked] at hret
      split_ifs at hret
  | notForked hparent =>
    refine ⟨?_,?_,by rintro ⟨⟩,h.atMost,by rintro ⟨⟩,fun hret => ?_⟩
    · simpa [Event.endsChild,Event.cutsOff] using h.running
    · simpa [Event.isClosed,Event.cutsOff] using h.connections
    · simp at hret
  | ended hparent hall =>
    refine ⟨?_,?_,by rintro ⟨⟩,h.atMost,by rintro ⟨⟩,fun _ => ⟨h.waiting hparent,hall⟩⟩
    · simpa [Event.endsChild,Event.cutsOff] using h.running
    · simpa [Event.isClosed,Event.cutsOff] using h.connections
  | @waited w hparent hchild =>
    have hlength : (s.children.set w .waitedFor).length = s.children.length := List.length_set
    refine ⟨?_,?_,?_,hlength.trans_le h.atMost,fun hwaiting => ?_,fun hret => ?_⟩
    · have hrun := Threads.countP_set_of_eq (y := .waitedFor) (p := ChildPosition.isRunning) hchild rfl
      simpa [State.setChild,hrun,Event.endsChild,Event.cutsOff] using h.running
    · have hserve := Threads.countP_set_of_eq (y := .waitedFor) (p := ChildPosition.isServing) hchild rfl
      simpa [State.setChild,hserve,Event.isClosed,Event.cutsOff] using h.connections
    · intro hforking
      cases hparent.symm.trans hforking
    · exact hlength.trans (h.waiting hwaiting)
    · cases hparent.symm.trans hret
  | accepted hchild => exact h.move (k := 1) hchild rfl rfl rfl List.length_append rfl rfl
  | notAccepted hchild => exact h.move (k := 0) hchild rfl rfl rfl rfl rfl rfl
  | closed hchild _ _ => exact h.move (k := 0) hchild rfl rfl rfl rfl rfl rfl
  | @killed w x hchild hrunning =>
    refine h.move (k := 0) hchild hrunning rfl rfl rfl ?_ ?_
    · cases x <;> rfl
    · cases x <;> rfl
  | @answered w i c d answer messages hchild _ hanswer =>
    have hcut := @cutsOff_answered w i _ _ _ _ hanswer
    refine h.move (k := 0) hchild rfl rfl rfl (by simp [State.answered]) ?_ ?_
    · by_cases hd : d.position = .exited
      · simp [hd,hcut,Event.endsChild,ChildPosition.isRunning]
      · simp [hd,hcut,Event.endsChild,ChildPosition.isRunning]
    · by_cases hd : d.position = .exited
      · simp [hd,hcut,Event.isClosed,ChildPosition.isServing,ChildPosition.client?]
      · simp [hd,hcut,Event.isClosed,ChildPosition.isServing,ChildPosition.client?]

end Steps

section Runs
variable {s : State} {actions : List Action} {events : List Event}

theorem sound_run (hr : Machine.run step init actions = some (s,events)) :
    Isolated events s ∧ Owned events s ∧ Counted events s := by
  have hinit : Isolated [] init ∧ Owned [] init ∧ Counted [] init :=
    ⟨fun _ => ⟨[],rfl⟩,⟨rfl,by rintro _ _ ⟨⟩,by rintro _ ⟨⟩⟩,
      ⟨rfl,rfl,fun _ => by decide,by decide,by rintro ⟨⟩,by rintro ⟨⟩⟩⟩
  refine Machine.run_invariant (fun past s => Isolated past s ∧ Owned past s ∧ Counted past s)
    ?_ hinit hr
  rintro past s action t e ⟨hisolated,howned,hcounted⟩ hs
  have hc := change_of_step hs
  exact ⟨hisolated.change hc,howned.change hc,hcounted.change hc⟩

/-- Two children never have to do with the same connection. -/
theorem Owned.eq_of_serves (h : Owned events s) {e e' : Event} (he : e ∈ events) (he' : e' ∈ events)
    {w w' i : ℕ} (hw : e.serves? = some (w,i)) (hw' : e'.serves? = some (w',i)) : w = w' := by
  have hnodup : ((events.filterMap Event.accepted?).map Prod.snd).Nodup := by
    rw [h.accepts]
    exact List.nodup_range
  have heq := List.inj_on_of_nodup_map hnodup (h.serves e he (w,i) hw) (h.serves e' he' (w',i) hw') rfl
  exact congrArg Prod.fst heq

/-- After `main` has returned 0 there is nobody left. -/
theorem Counted.step_eq_none (h : Counted events s) (hret : s.parent = .returned 0) (a : Action) :
    step s a = none := by
  cases hs : step s a with
  | none => rfl
  | some r =>
    obtain ⟨t,e⟩ := r
    have hall := (h.returned hret).2
    have hchild : ∀ (w : ℕ) (x : ChildPosition), s.children[w]? = some x → x = .waitedFor :=
      fun w x hx => hall x (List.mem_of_getElem? hx)
    cases change_of_step hs with
    | forked hparent => cases hret.symm.trans hparent
    | notForked hparent => cases hret.symm.trans hparent
    | ended hparent _ => cases hret.symm.trans hparent
    | waited hparent _ => cases hret.symm.trans hparent
    | accepted hx => cases hchild _ _ hx
    | notAccepted hx => cases hchild _ _ hx
    | answered hx _ _ => cases hchild _ _ hx
    | closed hx _ _ => cases hchild _ _ hx
    | killed hx hrunning =>
      cases hchild _ _ hx
      cases hrunning

/-- Two children serve a client each; the second one cannot send the answer and ends. -/
def secondFails : List Action :=
  [.fork true,.fork true,.accept 1 true,.accept 0 true,.answer 0 (.received [104,105]),
    .answer 1 (.received [111]),.fork true,.answer 0 (.sent 2),.answer 1 .sendFailed,.answer 0 .ended,
    .close 0,.accept 0 true]

end Runs

end CStudy.UpcaseServer.Preforked
