import CStudy.UpcaseServer.Multithreaded

/-! What the threads of `multi_thread_server01` hold. Each `struct client_info` belongs to `main` or to
one thread, and so does each open descriptor, but for those that are left behind when
`pthread_create` fails. So no thread touches the client of another one. -/
namespace CStudy.UpcaseServer.Multithreaded
open CStudy.Foundation

/-- The struct `main` has allocated and not yet handed over. -/
def MainPosition.info? : MainPosition → Option Ptr
  | .accept info => some info
  | .create info => some info
  | _ => none

/-- The struct whose socket `main` has accepted. -/
def MainPosition.accepted? : MainPosition → Option Ptr
  | .create info => some info
  | _ => none

/-- The struct a thread has not yet freed. -/
def Handler.info? (t : Handler) : Option Ptr := if t.position = .ended then none else some t.info

/-- The struct whose socket a thread has not yet closed. -/
def Handler.serving? (t : Handler) : Option Ptr :=
  if t.position = .serving then some t.info else none

/-- `info->sock` -/
def sockIn (infos : Heap ClientInfo) (info : Ptr) : Option Ptr :=
  (infos.read info).bind ClientInfo.sock

namespace State

/-- The structs in use, one for each client that is waited for or served. -/
def infosHeld (s : State) : List Ptr :=
  s.main.info?.toList++s.handlers.filterMap Handler.info?

/-- The structs with an open socket. -/
def connected (s : State) : List Ptr :=
  s.main.accepted?.toList++s.handlers.filterMap Handler.serving?

end State

/-- The structs are those held, and the descriptors those stored in them and the lost ones. -/
structure Sound (s : State) (lost : List Ptr) : Prop where
  infos : s.infos.Inventory s.infosHeld
  sockets : s.sockets.Inventory (s.connected.filterMap (sockIn s.infos)++lost)
  stored : ∀ info ∈ s.connected, (sockIn s.infos info).isSome

section Held
variable {s : State} {i : ℕ} {t : Handler} {lost : List Ptr} {info : Ptr}

theorem serving_subset (handlers : List Handler) :
    handlers.filterMap Handler.serving? ⊆ handlers.filterMap Handler.info? := by
  intro info hinfo
  obtain ⟨t,ht,heq⟩ := List.mem_filterMap.mp hinfo
  refine List.mem_filterMap.mpr ⟨t,ht,?_⟩
  rw [Handler.serving?] at heq
  split_ifs at heq with hpos
  simpa [Handler.info?,hpos] using heq

theorem connected_subset : s.connected ⊆ s.infosHeld := by
  refine List.append_subset.mpr ⟨?_,?_⟩
  · refine List.subset_append_of_subset_left _ ?_
    cases hm : s.main <;> simp [MainPosition.accepted?,MainPosition.info?]
  · exact List.subset_append_of_subset_right _ (serving_subset s.handlers)

theorem infosHeld_of_main (hmain : s.main.info? = some info) :
    s.infosHeld = info::s.handlers.filterMap Handler.info? := by
  rw [State.infosHeld,hmain]
  rfl

/-- What all threads and `main` hold, before and after a step of one thread. -/
theorem held_set_perm (f : Handler → Option Ptr) (main : List Ptr) (ht : s.handlers[i]? = some t)
    (t' : Handler) : ((f t).toList++(main++(s.setHandler i t').handlers.filterMap f)).Perm
      ((f t').toList++(main++s.handlers.filterMap f)) := by
  refine (List.perm_append_comm_assoc _ _ _).trans (.trans (.append_left main ?_)
    (List.perm_append_comm_assoc _ _ _))
  exact Threads.filterMap_set_perm f ht

theorem mem_connected (ht : s.handlers[i]? = some t) (hpos : t.position = .serving) :
    t.info ∈ s.connected :=
  List.mem_append_right _
    (List.mem_filterMap.mpr ⟨t,List.mem_of_getElem? ht,by simp [Handler.serving?,hpos]⟩)

theorem mem_infosHeld (ht : s.handlers[i]? = some t) (hpos : t.position ≠ .ended) :
    t.info ∈ s.infosHeld :=
  List.mem_append_right _
    (List.mem_filterMap.mpr ⟨t,List.mem_of_getElem? ht,by simp [Handler.info?,hpos]⟩)

/-- What is stored in the structs with an open socket stays when other structs change. -/
theorem sockIn_congr {l : List Ptr} {infos infos' : Heap ClientInfo}
    (h : ∀ info ∈ l, infos'.read info = infos.read info) :
    (l.filterMap (sockIn infos') = l.filterMap (sockIn infos)) ∧
      ((∀ info ∈ l, (sockIn infos info).isSome) → ∀ info ∈ l, (sockIn infos' info).isSome) := by
  have heq : ∀ info ∈ l, sockIn infos' info = sockIn infos info := by
    intro info hinfo
    rw [sockIn,sockIn,h info hinfo]
  refine ⟨List.filterMap_congr heq,fun hsome info hinfo => ?_⟩
  rw [heq info hinfo]
  exact hsome info hinfo

namespace Sound

theorem socketOf (h : Sound s lost) (hinfo : info ∈ s.connected) :
    ∃ sock, sockIn s.infos info = some sock ∧ s.socketOf info = some sock := by
  obtain ⟨sock,hsock⟩ := Option.isSome_iff_exists.mp (h.stored info hinfo)
  refine ⟨sock,hsock,?_⟩
  obtain ⟨c,hc,hcs⟩ := Option.bind_eq_some_iff.mp hsock
  obtain ⟨_,hopen⟩ := h.sockets.read (List.mem_append_left _
    (List.mem_filterMap.mpr ⟨info,hinfo,hsock⟩))
  simp [State.socketOf,hc,hcs,hopen]

/-- Structs without an open socket may change. -/
theorem keep {u : State} (h : Sound s lost) (hinfos : u.infos.Inventory u.infosHeld)
    (hconnected : u.connected = s.connected) (hsockets : u.sockets = s.sockets)
    (hread : ∀ info ∈ s.connected, u.infos.read info = s.infos.read info) : Sound u lost := by
  obtain ⟨hsame,hstored⟩ := sockIn_congr hread
  refine ⟨hinfos,?_,?_⟩
  · rw [hconnected,hsockets,hsame]
    exact h.sockets
  · rw [hconnected]
    exact hstored h.stored

/-- The struct of the next client is not one of those that are served. -/
theorem notMem_serving (h : Sound s lost) (hmain : s.main.info? = some info) :
    info ∉ s.handlers.filterMap Handler.serving? := by
  have hnodup := h.infos.nodup
  rw [infosHeld_of_main hmain] at hnodup
  exact fun hmem => (List.nodup_cons.mp hnodup).1 (serving_subset _ hmem)

theorem allocated (h : Sound s lost) (hmain : s.main = .allocate) :
    Sound { s with infos := s.infos.alloc ⟨none⟩, main := .accept s.infos.top } lost := by
  refine h.keep ?_ ?_ rfl ?_
  · simpa [State.infosHeld,hmain,MainPosition.info?] using h.infos.alloc ⟨none⟩
  · simp [State.connected,hmain,MainPosition.accepted?]
  · intro info hinfo
    obtain ⟨c,hc⟩ := h.infos.read (connected_subset hinfo)
    exact Heap.read_alloc_of_ne (Heap.lt_top hc).ne

/-- The new descriptor is stored in the struct of the next client. -/
theorem accepted (h : Sound s lost) (hmain : s.main = .accept info) :
    Sound { s with
      infos := s.infos.modify info fun _ => ⟨some s.sockets.top⟩
      sockets := s.sockets.alloc ()
      main := .create info } lost := by
  have hinfo : s.main.info? = some info := by rw [hmain,MainPosition.info?]
  have hconnected : s.connected = s.handlers.filterMap Handler.serving? := by
    simp [State.connected,hmain,MainPosition.accepted?]
  obtain ⟨c,hc⟩ := h.infos.read (p := info) (by simp [infosHeld_of_main hinfo])
  obtain ⟨hsame,hstored⟩ := @sockIn_congr s.connected s.infos
    (s.infos.modify info fun _ => ⟨some s.sockets.top⟩) fun p hp => Heap.read_modify_of_ne (by
      rintro rfl
      rw [hconnected] at hp
      exact h.notMem_serving hinfo hp)
  have hnew : sockIn (s.infos.modify info fun _ => ⟨some s.sockets.top⟩) info =
      some s.sockets.top := by simp [sockIn,hc]
  refine ⟨?_,?_,?_⟩
  · simpa [State.infosHeld,hmain,MainPosition.info?] using h.infos.modify info _
  · have halloc := h.sockets.alloc ()
    rw [← hsame,hconnected,← List.cons_append] at halloc
    simpa [State.connected,MainPosition.accepted?,hnew] using halloc
  · simp only [State.connected,MainPosition.accepted?,Option.toList_some,List.cons_append,
      List.nil_append,List.forall_mem_cons]
    rw [← hconnected]
    exact ⟨by simp [hnew],hstored h.stored⟩

theorem refused (h : Sound s lost) (hmain : s.main = .accept info) :
    Sound { s with infos := s.infos.free info, main := .allocate } lost := by
  have hinfo : s.main.info? = some info := by rw [hmain,MainPosition.info?]
  have hinfos := h.infos
  rw [infosHeld_of_main hinfo] at hinfos
  refine h.keep ?_ ?_ rfl ?_
  · simpa [State.infosHeld,MainPosition.info?] using hinfos.free
  · simp [State.connected,hmain,MainPosition.accepted?]
  · intro p hp
    refine Heap.read_free_of_ne ?_
    rintro rfl
    simp only [State.connected,hmain,MainPosition.accepted?,Option.toList_none,
      List.nil_append] at hp
    exact h.notMem_serving hinfo hp

theorem started (h : Sound s lost) (hmain : s.main = .create info) :
    Sound { s with handlers := s.handlers++[⟨info,start,.serving⟩], main := .allocate } lost := by
  refine ⟨h.infos.perm ?_,h.sockets.perm (.append_right lost (.filterMap _ ?_)),fun p hp => ?_⟩
  · simp [State.infosHeld,hmain,MainPosition.info?,Handler.info?]
  · simp [State.connected,hmain,MainPosition.accepted?,Handler.serving?]
  · refine h.stored p ?_
    simpa [State.connected,hmain,MainPosition.accepted?,Handler.serving?,or_comm] using hp

/-- The struct is freed, and the descriptor is in no struct any more. -/
theorem notStarted (h : Sound s lost) (hmain : s.main = .create info) :
    ∃ sock, Sound { s with infos := s.infos.free info, main := .allocate } (sock::lost) := by
  have hinfo : s.main.info? = some info := by rw [hmain,MainPosition.info?]
  have hconnected : s.connected = info::s.handlers.filterMap Handler.serving? := by
    simp [State.connected,hmain,MainPosition.accepted?]
  have hnotMem := h.notMem_serving hinfo
  obtain ⟨hinfos,hsockets,hstored⟩ := h
  rw [infosHeld_of_main hinfo] at hinfos
  rw [hconnected] at hsockets hstored
  obtain ⟨sock,hsock⟩ := Option.isSome_iff_exists.mp (hstored info List.mem_cons_self)
  obtain ⟨hsame,hkept⟩ := @sockIn_congr (s.handlers.filterMap Handler.serving?) s.infos
    (s.infos.free info) fun p hp => Heap.read_free_of_ne (by
      rintro rfl
      exact hnotMem hp)
  refine ⟨sock,?_,?_,?_⟩
  · simpa [State.infosHeld,MainPosition.info?] using hinfos.free
  · rw [List.filterMap_cons_some hsock] at hsockets
    refine hsockets.perm ?_
    simp only [State.connected,MainPosition.accepted?,Option.toList_none,List.nil_append,hsame]
    exact List.perm_middle
  · simp only [State.connected,MainPosition.accepted?,Option.toList_none,List.nil_append]
    exact hkept fun p hp => hstored p (List.mem_cons_of_mem info hp)

theorem answered (h : Sound s lost) (ht : s.handlers[i]? = some t) (c : Connection) :
    Sound (s.setHandler i { t with connection := c }) lost := by
  have hinfo : (s.setHandler i { t with connection := c }).handlers.filterMap Handler.info? =
      s.handlers.filterMap Handler.info? := Threads.filterMap_set_of_eq ht rfl
  have hserving : (s.setHandler i { t with connection := c }).handlers.filterMap
      Handler.serving? = s.handlers.filterMap Handler.serving? :=
    Threads.filterMap_set_of_eq ht rfl
  refine h.keep ?_ ?_ rfl fun _ _ => rfl
  · rw [State.infosHeld,hinfo]
    exact h.infos
  · rw [State.connected,hserving]
    rfl

/-- The descriptor of a thread is closed while its struct is kept. -/
theorem closed {sock : Ptr} (h : Sound s lost) (ht : s.handlers[i]? = some t)
    (hpos : t.position = .serving) (hsock : s.socketOf t.info = some sock) :
    Sound { s.setHandler i { t with position := .freeing } with sockets := s.sockets.free sock }
      lost := by
  have hinfo : (s.setHandler i { t with position := .freeing }).handlers.filterMap Handler.info? =
      s.handlers.filterMap Handler.info? :=
    Threads.filterMap_set_of_eq ht (by simp [Handler.info?,hpos])
  have hperm := held_set_perm Handler.serving? s.main.accepted?.toList ht
    { t with position := .freeing }
  simp only [Handler.serving?,hpos,if_true,reduceCtorEq,if_false,Option.toList_some,
    Option.toList_none,List.cons_append,List.nil_append] at hperm
  have hread : sockIn s.infos t.info = some sock := by
    obtain ⟨sock',hread,hsock'⟩ := h.socketOf (mem_connected ht hpos)
    cases hsock.symm.trans hsock'
    exact hread
  refine ⟨?_,?_,fun info hmem => ?_⟩
  · rw [State.infosHeld,hinfo]
    exact h.infos
  · have hsockets := h.sockets.perm (.append_right lost (hperm.filterMap (sockIn s.infos)))
    rw [List.filterMap_cons_some hread] at hsockets
    exact hsockets.free
  · exact h.stored info (hperm.subset (List.mem_cons_of_mem _ hmem))

theorem freed (h : Sound s lost) (ht : s.handlers[i]? = some t) (hpos : t.position = .freeing) :
    Sound { s.setHandler i { t with position := .ended } with infos := s.infos.free t.info }
      lost := by
  have hconnected : (s.setHandler i { t with position := .ended }).connected = s.connected := by
    have hserving : (s.setHandler i { t with position := .ended }).handlers.filterMap
        Handler.serving? = s.handlers.filterMap Handler.serving? :=
      Threads.filterMap_set_of_eq ht (by simp [Handler.serving?,hpos])
    rw [State.connected,hserving]
    rfl
  have hperm := held_set_perm Handler.info? s.main.info?.toList ht { t with position := .ended }
  simp only [Handler.info?,hpos,if_true,reduceCtorEq,if_false,Option.toList_some,
    Option.toList_none,List.cons_append,List.nil_append] at hperm
  have hinfos := h.infos.perm hperm
  refine h.keep hinfos.free hconnected rfl fun info hinfo => Heap.read_free_of_ne ?_
  rintro rfl
  rw [← hconnected] at hinfo
  exact (List.nodup_cons.mp hinfos.nodup).1 (connected_subset hinfo)

end Sound

theorem sound_init : Sound init [] :=
  ⟨Heap.Inventory.empty,Heap.Inventory.empty,by simp [State.connected,init,MainPosition.accepted?]⟩

/-- The failed calls of `pthread_create` leave a socket open. -/
def Action.loses : Action → Bool
  | .create false => true
  | _ => false

theorem Sound.change {u : State} {action : Action} (h : Sound s lost) (hc : Change s action u) :
    ∃ lost', lost'.length = lost.length+(if action.loses then 1 else 0) ∧ Sound u lost' := by
  cases hc with
  | allocated hmain => exact ⟨lost,rfl,h.allocated hmain⟩
  | outOfMemory hmain =>
    refine ⟨lost,rfl,h.keep ?_ ?_ rfl fun _ _ => rfl⟩
    · simpa [State.infosHeld,hmain,MainPosition.info?] using h.infos
    · simp [State.connected,hmain,MainPosition.accepted?]
  | accepted hmain => exact ⟨lost,rfl,h.accepted hmain⟩
  | refused hmain => exact ⟨lost,rfl,h.refused hmain⟩
  | started hmain => exact ⟨lost,rfl,h.started hmain⟩
  | notStarted hmain =>
    obtain ⟨sock,hs⟩ := h.notStarted hmain
    exact ⟨sock::lost,rfl,hs⟩
  | answered ht _ _ => exact ⟨lost,rfl,h.answered ht _⟩
  | closed ht hpos hsock => exact ⟨lost,rfl,h.closed ht hpos hsock⟩
  | freed ht hpos => exact ⟨lost,rfl,h.freed ht hpos⟩

end Held

namespace Action

/-- What a call of the `i`th thread in its loop has returned. -/
def answer? (i : ℕ) : Action → Option Answer
  | .answer j a => if j = i then some a else none
  | _ => none

/-- The thread whose turn it is stands at the statement of the action. -/
def Due (s : State) : Action → Prop
  | .malloc _ => s.main = .allocate
  | .accept _ => ∃ info, s.main = .accept info
  | .create _ => ∃ info, s.main = .create info
  | .answer i a => ∃ t, s.thread i = some t ∧ t.position = .serving ∧
      (handler.step t.connection a).isSome
  | .close i => ∃ t, s.thread i = some t ∧ t.position = .serving ∧ t.connection.position = .closed
  | .free i => ∃ t, s.thread i = some t ∧ t.position = .freeing

end Action

/-- The connection of the `i`th thread, which is new if there is no such thread. -/
def State.connectionOf (s : State) (i : ℕ) : Connection :=
  ((s.handlers[i]?).map Handler.connection).getD start

/-- Each connection is where `handler` alone is after the answers to its own calls. -/
def Isolated (past : List Action) (s : State) : Prop :=
  Machine.Apart handler.step start Action.answer? past s.connectionOf

section Runs
variable {s u : State} {i : ℕ} {t : Handler} {action : Action} {past : List Action}
  {lost : List Ptr}

theorem connectionOf_set (ht : s.handlers[i]? = some t) (t' : Handler) (j : ℕ) :
    (s.setHandler i t').connectionOf j =
      if i = j then t'.connection else s.connectionOf j := by
  obtain ⟨hi,_⟩ := List.getElem?_eq_some_iff.mp ht
  by_cases hij : i = j
  · subst hij
    simp [State.connectionOf,State.setHandler,hi]
  · simp [State.connectionOf,State.setHandler,hij]

theorem connectionOf_set_of_eq (ht : s.handlers[i]? = some t) {t' : Handler}
    (hc : t'.connection = t.connection) (j : ℕ) :
    (s.setHandler i t').connectionOf j = s.connectionOf j := by
  rw [connectionOf_set ht,hc]
  split_ifs with hij
  · subst hij
    simp [State.connectionOf,ht]
  · rfl

theorem Isolated.change (h : Isolated past s) (hc : Change s action u) :
    Isolated (past++[action]) u := by
  cases hc with
  | allocated _ => exact h.idle (fun _ => rfl) fun _ => rfl
  | outOfMemory _ => exact h.idle (fun _ => rfl) fun _ => rfl
  | accepted _ => exact h.idle (fun _ => rfl) fun _ => rfl
  | refused _ => exact h.idle (fun _ => rfl) fun _ => rfl
  | notStarted _ => exact h.idle (fun _ => rfl) fun _ => rfl
  | started _ =>
    refine h.idle (fun _ => rfl) fun i => ?_
    simp only [State.connectionOf,List.getElem?_append]
    split_ifs with hi
    · rfl
    · rw [List.getElem?_eq_none (Nat.le_of_not_lt hi)]
      cases i-s.handlers.length <;> rfl
  | closed ht _ _ => exact h.idle (fun _ => rfl) (connectionOf_set_of_eq ht rfl)
  | freed ht _ => exact h.idle (fun _ => rfl) (connectionOf_set_of_eq ht rfl)
  | @answered i t answer c messages ht _ hanswer =>
    have hi : s.connectionOf i = t.connection := by simp [State.connectionOf,ht]
    refine h.call (if_pos rfl) (fun j hj => ⟨if_neg (Ne.symm hj),?_⟩) (o := messages) ?_
    · rw [connectionOf_set ht,if_neg (Ne.symm hj)]
    · rw [hi,connectionOf_set ht,if_pos rfl,hanswer]

/-- The statement a thread stands at never reads what has been freed, and never frees it again. -/
theorem Sound.isSome_step (h : Sound s lost) (hdue : action.Due s) : (step s action).isSome := by
  cases action with
  | malloc success =>
    have hmain : s.main = .allocate := hdue
    cases success <;> simp [step,hmain]
  | accept success =>
    obtain ⟨info,hmain⟩ := hdue
    obtain ⟨c,hc⟩ := h.infos.read (p := info) (by simp [State.infosHeld,hmain,MainPosition.info?])
    cases success <;> simp [step,hmain,Heap.store,Heap.release,hc]
  | create success =>
    obtain ⟨info,hmain⟩ := hdue
    obtain ⟨c,hc⟩ := h.infos.read (p := info) (by simp [State.infosHeld,hmain,MainPosition.info?])
    cases success <;> simp [step,hmain,Heap.release,hc]
  | answer i answer =>
    obtain ⟨t,ht,hpos,hanswer⟩ := hdue
    obtain ⟨sock,_,hsock⟩ := h.socketOf (mem_connected (State.thread_eq ht).2 hpos)
    obtain ⟨r,hr⟩ := Option.isSome_iff_exists.mp hanswer
    simp [step,ht,hpos,hsock,hr]
  | close i =>
    obtain ⟨t,ht,hpos,hclosed⟩ := hdue
    have hmem := mem_connected (State.thread_eq ht).2 hpos
    obtain ⟨sock,hread,hsock⟩ := h.socketOf hmem
    obtain ⟨_,hopen⟩ := h.sockets.read (List.mem_append_left _
      (List.mem_filterMap.mpr ⟨t.info,hmem,hread⟩))
    simp [step,ht,hpos,hclosed,hsock,Heap.release,hopen]
  | free i =>
    obtain ⟨t,ht,hpos⟩ := hdue
    obtain ⟨c,hc⟩ := h.infos.read (mem_infosHeld (State.thread_eq ht).2 (by simp [hpos]))
    simp [step,ht,hpos,Heap.release,hc]

/-- How many structs there are, and how many descriptors. -/
theorem Sound.counts (h : Sound s lost) :
    {p | (s.infos.read p).isSome}.ncard =
        s.main.info?.toList.length+s.handlers.countP (fun t => t.position ≠ .ended) ∧
      {p | (s.sockets.read p).isSome}.ncard =
        s.main.accepted?.toList.length+s.handlers.countP (fun t => t.position = .serving)+
          lost.length := by
  rw [h.infos.ncard_live,h.sockets.ncard_live,List.length_append,
    List.filterMap_length_eq_length.mpr h.stored,State.infosHeld,State.connected,
    List.length_append,List.length_append,List.length_filterMap_eq_countP,
    List.length_filterMap_eq_countP]
  refine ⟨?_,?_⟩
  · congr 2
    funext t
    by_cases hpos : t.position = .ended <;> simp [Handler.info?,hpos]
  · congr 3
    funext t
    by_cases hpos : t.position = .serving <;> simp [Handler.serving?,hpos]

theorem sound_run {actions : List Action} {messages : List (List String)}
    (hr : Machine.run step init actions = some (s,messages)) :
    Isolated actions s ∧ ∃ lost, lost.length = actions.countP Action.loses ∧ Sound s lost := by
  have hinit : Isolated [] init ∧
      ∃ lost, lost.length = [].countP Action.loses ∧ Sound init lost :=
    ⟨fun i => ⟨[],rfl⟩,[],rfl,sound_init⟩
  refine Machine.run_history (fun past s => Isolated past s ∧
    ∃ lost, lost.length = past.countP Action.loses ∧ Sound s lost) ?_ hinit hr
  rintro past s action u _ ⟨hisolated,lost,hlength,hsound⟩ hs
  have hchange := change_of_step hs
  obtain ⟨lost',hlost,hsound'⟩ := hsound.change hchange
  refine ⟨hisolated.change hchange,lost',?_,hsound'⟩
  rw [hlost,hlength,List.countP_append,List.countP_singleton]

/-- A client is served and leaves while a second one is accepted, for which no thread is started. -/
def secondRefused : List Action :=
  [.malloc true,.accept true,.create true,.malloc true,.answer 0 (.received [104,105]),.accept true,
    .answer 0 (.sent 2),.create false,.answer 0 .ended,.close 0,.free 0]

end Runs

end CStudy.UpcaseServer.Multithreaded
