import CStudy.UpcaseServer.Evented

/-! The memory of `libuv_tcp_server01`. A callback works on the blocks of its own stream, so the
buffers of requests under way stay as they are until they have been sent. Given back are the blocks
of requests that are called back and the buffers that have been read from, but not the buffer that
comes with `UV_EOF`, and no `uv_tcp_t`. -/
namespace CStudy.UpcaseServer.Evented
open CStudy.Foundation

/-- The blocks of requests under way. -/
def blocksOf (heap : Heap Block) (writes : List Ptr) : List Ptr :=
  writes.flatMap fun req => req::(bufOf heap req).toList

/-- What is still to be sent for them. -/
def textOf (heap : Heap Block) (writes : List Ptr) : List UInt8 :=
  writes.flatMap fun req => ((bufOf heap req).bind (charsOf heap)).getD []

/-- A request with a buffer. -/
def Written (heap : Heap Block) (req : Ptr) : Prop :=
  ∃ buf bytes, bufOf heap req = some buf ∧ charsOf heap buf = some bytes

namespace Stream

/-- The blocks of a stream. -/
def held (heap : Heap Block) (t : Stream) : List Ptr :=
  t.client::(t.base.join.toList++blocksOf heap t.writes)

structure Valid (heap : Heap Block) (t : Stream) : Prop where
  base : ∀ p, t.base = some (some p) → (charsOf heap p).isSome
  writes : ∀ req ∈ t.writes, Written heap req

end Stream

/-- The blocks in use are those of the streams and some that no variable points to. -/
structure Sound (s : State) (lost : List Ptr) : Prop where
  blocks : s.heap.Inventory (s.streams.flatMap (Stream.held s.heap)++lost)
  valid : ∀ t ∈ s.streams, t.Valid s.heap

section Blocks
variable {heap heap' : Heap Block} {writes l rest : List Ptr} {p req buf : Ptr} {t : Stream}
  {bytes : List UInt8}

theorem bufOf_congr (h : heap'.read p = heap.read p) : bufOf heap' p = bufOf heap p := by
  rw [bufOf,bufOf,h]

theorem charsOf_congr (h : heap'.read p = heap.read p) : charsOf heap' p = charsOf heap p := by
  rw [charsOf,charsOf,h]

theorem mem_blocksOf (hreq : req ∈ writes) : req ∈ blocksOf heap writes :=
  List.mem_flatMap.mpr ⟨req,hreq,List.mem_cons_self⟩

theorem buf_mem_blocksOf (hreq : req ∈ writes) (hbuf : bufOf heap req = some buf) :
    buf ∈ blocksOf heap writes :=
  List.mem_flatMap.mpr ⟨req,hreq,by simp [hbuf]⟩

theorem Written.congr (h : ∀ p ∈ blocksOf heap writes, heap'.read p = heap.read p)
    (hreq : req ∈ writes) (hw : Written heap req) : Written heap' req := by
  obtain ⟨buf,bytes,hbuf,hbytes⟩ := hw
  refine ⟨buf,bytes,?_,?_⟩
  · rw [bufOf_congr (h req (mem_blocksOf hreq)),hbuf]
  · rw [charsOf_congr (h buf (buf_mem_blocksOf hreq hbuf)),hbytes]

theorem blocksOf_congr (h : ∀ p ∈ blocksOf heap writes, heap'.read p = heap.read p) :
    blocksOf heap' writes = blocksOf heap writes := by
  refine List.flatMap_congr fun req hreq => ?_
  rw [bufOf_congr (h req (mem_blocksOf hreq))]

theorem textOf_congr (h : ∀ p ∈ blocksOf heap writes, heap'.read p = heap.read p) :
    textOf heap' writes = textOf heap writes := by
  refine List.flatMap_congr fun req hreq => ?_
  rw [bufOf_congr (h req (mem_blocksOf hreq))]
  cases hbuf : bufOf heap req with
  | none => rfl
  | some buf => rw [Option.bind_some,Option.bind_some,charsOf_congr (h buf (buf_mem_blocksOf hreq hbuf))]

namespace Stream

theorem blocksOf_subset : blocksOf heap t.writes ⊆ t.held heap := by
  intro p hp
  exact List.mem_cons_of_mem _ (List.mem_append_right _ hp)

theorem held_congr (h : ∀ p ∈ t.held heap, heap'.read p = heap.read p) :
    t.held heap' = t.held heap := by
  rw [held,held,blocksOf_congr fun p hp => h p (blocksOf_subset hp)]

theorem Valid.congr (hv : t.Valid heap) (h : ∀ p ∈ t.held heap, heap'.read p = heap.read p) :
    t.Valid heap' := by
  refine ⟨fun p hp => ?_,fun req hreq => ?_⟩
  · rw [charsOf_congr (h p (by simp [held,hp]))]
    exact hv.base p hp
  · exact (hv.writes req hreq).congr (fun p hp => h p (blocksOf_subset hp)) hreq

theorem length_held (hv : t.Valid heap) :
    (t.held heap).length = 1+(if t.base.join.isSome then 1 else 0)+2*t.writes.length := by
  have hwrites : (blocksOf heap t.writes).length = 2*t.writes.length := by
    rw [blocksOf,List.length_flatMap]
    have hmap : t.writes.map (fun req => (req::(bufOf heap req).toList).length) =
        t.writes.map fun _ => 2 := by
      refine List.map_congr_left fun req hreq => ?_
      obtain ⟨buf,_,hbuf,_⟩ := hv.writes req hreq
      simp [hbuf]
    rw [hmap]
    simp [Nat.mul_comm]
  rw [held,List.length_cons,List.length_append,hwrites]
  cases t.base.join <;> simp <;> omega

end Stream

theorem lt_top_of_mem (hi : heap.Inventory l) (hp : p ∈ l) : p < heap.top := by
  obtain ⟨c,hc⟩ := hi.read hp
  exact Heap.lt_top hc

theorem read_newRequest_req (heap : Heap Block) (bytes : List UInt8) :
    (newRequest heap bytes).read heap.top = some (.request (some (heap.top+1))) := by
  have hne : heap.top ≠ (heap.alloc (.request none)).top := by simp
  rw [newRequest,Heap.read_modify_self,Heap.read_alloc_of_ne hne,Heap.read_alloc_top]
  simp

theorem read_newRequest_buf (heap : Heap Block) (bytes : List UInt8) :
    (newRequest heap bytes).read (heap.top+1) = some (.chars bytes) := by
  have hne : heap.top+1 ≠ heap.top := Nat.succ_ne_self heap.top
  rw [newRequest,Heap.read_modify_of_ne hne]
  exact Heap.read_alloc_top (heap.alloc (.request none)) (.chars bytes)

theorem read_newRequest_of_lt (hp : p < heap.top) :
    (newRequest heap bytes).read p = heap.read p := by
  have hne : p ≠ (heap.alloc (.request none)).top := (Nat.lt_succ_of_lt hp).ne
  rw [newRequest,Heap.read_modify_of_ne hp.ne,Heap.read_alloc_of_ne hne,Heap.read_alloc_of_ne hp.ne]

theorem inventory_newRequest (hi : heap.Inventory l) :
    (newRequest heap bytes).Inventory ((heap.top+1)::heap.top::l) :=
  ((hi.alloc (.request none)).alloc (.chars bytes)).modify _ _

theorem upcase_fill (block chunk : List UInt8) :
    upcase (fill block chunk) chunk.length = chunk.map toupper := by
  rw [upcase,fill,List.take_left]

end Blocks

/-- What a callback does: the blocks of its stream become those of the stream after it and some that
no variable points to any more, and of the text to be sent the front is sent and some is added. -/
structure Turn (heap : Heap Block) (t : Stream) (rest lost : List Ptr) (heap' : Heap Block)
    (t' : Stream) (sent queued : List UInt8) : Prop where
  blocks : heap'.Inventory (t'.held heap'++(lost++rest))
  frame : ∀ p ∈ rest, heap'.read p = heap.read p
  valid : t'.Valid heap'
  text : sent++textOf heap' t'.writes = textOf heap t.writes++queued

section Turns
variable {heap heap' : Heap Block} {l rest writes : List Ptr} {t t' : Stream} {p q base req buf : Ptr}
  {bytes chunk block : List UInt8}

theorem read_free_of_mem (hi : heap.Inventory (q::l)) (hp : p ∈ l) :
    (heap.free q).read p = heap.read p := by
  refine Heap.read_free_of_ne ?_
  rintro rfl
  exact (List.nodup_cons.mp hi.nodup).1 hp

theorem held_of_base (hbase : t.base = some (some base)) :
    t.held heap = t.client::base::blocksOf heap t.writes := by simp [Stream.held,hbase]

theorem held_of_none (hbase : t.base.join = none) :
    t.held heap = t.client::blocksOf heap t.writes := by simp [Stream.held,hbase]

/-- Between two callbacks for what is read there is no buffer. -/
theorem Stream.Valid.writes_only (hv : t.Valid heap) (hbase : t'.base.join = none)
    (hwrites : t'.writes = t.writes)
    (hframe : ∀ p ∈ blocksOf heap t.writes, heap'.read p = heap.read p) : t'.Valid heap' := by
  refine ⟨fun p hp => ?_,fun req hreq => ?_⟩
  · rw [hp] at hbase
    cases hbase
  · rw [hwrites] at hreq
    exact (hv.writes req hreq).congr hframe hreq

/-- What `ReadCallback` has made of the heap before it calls `uv_write`. -/
theorem newRequest_free (hi : heap.Inventory (t.held heap++rest)) (hbase : t.base = some (some base)) :
    ((newRequest heap bytes).free base).Inventory
      ((heap.top+1)::heap.top::(t.client::blocksOf heap t.writes++rest)) ∧
    (∀ p ∈ t.client::blocksOf heap t.writes++rest,
      ((newRequest heap bytes).free base).read p = heap.read p) ∧
    ((newRequest heap bytes).free base).read heap.top = some (.request (some (heap.top+1))) ∧
    ((newRequest heap bytes).free base).read (heap.top+1) = some (.chars bytes) := by
  rw [held_of_base hbase] at hi
  have hi' : heap.Inventory (base::(t.client::blocksOf heap t.writes++rest)) :=
    hi.perm (.swap _ _ _)
  have hnew : (newRequest heap bytes).Inventory
      (base::(heap.top+1)::heap.top::(t.client::blocksOf heap t.writes++rest)) :=
    (inventory_newRequest hi').perm ((List.Perm.swap _ _ _).trans (.cons _ (.swap _ _ _)))
  refine ⟨hnew.free,fun p hp => ?_,?_,?_⟩
  · rw [read_free_of_mem hnew (List.mem_cons_of_mem _ (List.mem_cons_of_mem _ hp)),
      read_newRequest_of_lt (lt_top_of_mem hi' (List.mem_cons_of_mem _ hp))]
  · rw [read_free_of_mem hnew (List.mem_cons_of_mem _ List.mem_cons_self),read_newRequest_req]
  · rw [read_free_of_mem hnew List.mem_cons_self,read_newRequest_buf]

section Reading
variable (hi : heap.Inventory (t.held heap++rest)) (hv : t.Valid heap) (hclient : t'.client = t.client)
include hi hv hclient

/-- There is no buffer, before and after. -/
theorem turn_idle (hwrites : t'.writes = t.writes) (hbase : t.base.join = none)
    (hbase' : t'.base.join = none) : Turn heap t rest [] heap t' [] [] := by
  refine ⟨?_,fun _ _ => rfl,hv.writes_only hbase' hwrites fun _ _ => rfl,by simp [hwrites]⟩
  rw [held_of_none hbase] at hi
  rwa [held_of_none hbase',hclient,hwrites]

theorem turn_allocated (hwrites : t'.writes = t.writes) (hbase : t.base = none)
    (hbase' : t'.base = some (some heap.top)) :
    Turn heap t rest [] (heap.alloc (.chars bytes)) t' [] [] := by
  rw [held_of_none (by rw [hbase]; rfl)] at hi
  have hframe : ∀ p ∈ t.client::blocksOf heap t.writes++rest,
      (heap.alloc (.chars bytes)).read p = heap.read p :=
    fun p hp => Heap.read_alloc_of_ne (lt_top_of_mem hi hp).ne
  have hown : ∀ p ∈ blocksOf heap t.writes, (heap.alloc (.chars bytes)).read p = heap.read p :=
    fun p hp => hframe p (List.mem_cons_of_mem _ (List.mem_append_left _ hp))
  refine ⟨?_,fun p hp => hframe p (List.mem_append_right _ hp),⟨fun p hp => ?_,?_⟩,?_⟩
  · rw [held_of_base hbase',hclient,hwrites,blocksOf_congr hown]
    exact (hi.alloc (.chars bytes)).perm (.swap _ _ _)
  · rw [hbase',Option.some_inj,Option.some_inj] at hp
    subst hp
    simp [charsOf]
  · rw [hwrites]
    exact fun req hreq => (hv.writes req hreq).congr hown hreq
  · rw [hwrites,textOf_congr hown,List.nil_append,List.append_nil]

section Held
variable (hbase : t.base = some (some base)) (hbase' : t'.base = none)
include hbase hbase'

/-- `buf->base` is not freed. -/
theorem turn_ended (hwrites : t'.writes = t.writes) :
    Turn heap t rest [base] heap t' [] [] := by
  have hjoin : t'.base.join = none := by rw [hbase']; rfl
  refine ⟨?_,fun _ _ => rfl,hv.writes_only hjoin hwrites fun _ _ => rfl,by simp [hwrites]⟩
  rw [held_of_base hbase] at hi
  rw [held_of_none hjoin,hclient,hwrites]
  refine hi.perm ?_
  simp only [List.cons_append,List.nil_append]
  exact List.Perm.cons _ List.perm_middle

theorem turn_failed (hwrites : t'.writes = t.writes) :
    Turn heap t rest [] (heap.free base) t' [] [] := by
  have hjoin : t'.base.join = none := by rw [hbase']; rfl
  rw [held_of_base hbase] at hi
  have hi' : heap.Inventory (base::(t.client::blocksOf heap t.writes++rest)) :=
    hi.perm (.swap _ _ _)
  have hframe : ∀ p ∈ t.client::blocksOf heap t.writes++rest,
      (heap.free base).read p = heap.read p := fun p hp => read_free_of_mem hi' hp
  have hown : ∀ p ∈ blocksOf heap t.writes, (heap.free base).read p = heap.read p :=
    fun p hp => hframe p (List.mem_cons_of_mem _ (List.mem_append_left _ hp))
  refine ⟨?_,fun p hp => hframe p (List.mem_append_right _ hp),hv.writes_only hjoin hwrites hown,?_⟩
  · rw [held_of_none hjoin,hclient,hwrites,blocksOf_congr hown]
    exact hi'.free
  · rw [hwrites,textOf_congr hown,List.nil_append,List.append_nil]

theorem turn_notQueued (hwrites : t'.writes = t.writes) :
    Turn heap t rest [heap.top+1,heap.top] ((newRequest heap bytes).free base) t' [] [] := by
  have hjoin : t'.base.join = none := by rw [hbase']; rfl
  obtain ⟨hblocks,hframe,_,_⟩ := @newRequest_free _ _ _ _ bytes hi hbase
  have hown : ∀ p ∈ blocksOf heap t.writes,
      ((newRequest heap bytes).free base).read p = heap.read p :=
    fun p hp => hframe p (List.mem_cons_of_mem _ (List.mem_append_left _ hp))
  refine ⟨?_,fun p hp => hframe p (List.mem_append_right _ hp),hv.writes_only hjoin hwrites hown,?_⟩
  · rw [held_of_none hjoin,hclient,hwrites,blocksOf_congr hown]
    refine hblocks.perm ?_
    have hswap := List.perm_append_comm_assoc (t.client::blocksOf heap t.writes)
      [heap.top+1,heap.top] rest
    simpa using hswap
  · rw [hwrites,textOf_congr hown,List.nil_append,List.append_nil]

theorem turn_queued (hwrites : t'.writes = t.writes++[heap.top]) :
    Turn heap t rest [] ((newRequest heap bytes).free base) t' [] bytes := by
  have hjoin : t'.base.join = none := by rw [hbase']; rfl
  obtain ⟨hblocks,hframe,hreq,hbuf⟩ := @newRequest_free _ _ _ _ bytes hi hbase
  have hown : ∀ p ∈ blocksOf heap t.writes,
      ((newRequest heap bytes).free base).read p = heap.read p :=
    fun p hp => hframe p (List.mem_cons_of_mem _ (List.mem_append_left _ hp))
  have hbufOf : bufOf ((newRequest heap bytes).free base) heap.top = some (heap.top+1) := by
    rw [bufOf,hreq]
  have hchars : charsOf ((newRequest heap bytes).free base) (heap.top+1) = some bytes := by
    rw [charsOf,hbuf]
  refine ⟨?_,fun p hp => hframe p (List.mem_append_right _ hp),⟨fun p hp => ?_,?_⟩,?_⟩
  · have happend : blocksOf ((newRequest heap bytes).free base) t'.writes =
        blocksOf heap t.writes++[heap.top,heap.top+1] := by
      rw [hwrites,← blocksOf_congr hown]
      simp [blocksOf,hbufOf]
    rw [held_of_none hjoin,hclient,happend]
    refine hblocks.perm ?_
    have hswap := List.perm_append_comm_assoc (t.client::blocksOf heap t.writes)
      [heap.top,heap.top+1] rest
    refine (by simpa using hswap : List.Perm _ _).trans (.swap _ _ _)
  · rw [hbase'] at hp
    cases hp
  · rw [hwrites,List.forall_mem_append]
    refine ⟨fun req hmem => (hv.writes req hmem).congr hown hmem,?_⟩
    rw [List.forall_mem_singleton]
    exact ⟨_,_,hbufOf,hchars⟩
  · rw [hwrites,List.nil_append,← textOf_congr hown]
    simp [textOf,hbufOf,hchars]

end Held
end Reading

/-- The blocks of the oldest request, and those of the stream without it. -/
theorem held_perm (hwrites : t.writes = req::writes) (hbuf : bufOf heap req = some buf) :
    (buf::req::(Stream.held heap { t with writes := writes }++rest)).Perm (t.held heap++rest) := by
  have hsplit : blocksOf heap t.writes = req::buf::blocksOf heap writes := by
    simp [blocksOf,hwrites,hbuf]
  have hmiddle := @List.perm_middle _ req (t.client::t.base.join.toList)
    (buf::(blocksOf heap writes++rest))
  have hinner := @List.perm_middle _ buf (t.client::t.base.join.toList)
    (blocksOf heap writes++rest)
  rw [Stream.held,Stream.held,hsplit]
  refine List.Perm.trans ?_ (by simpa using hmiddle.symm)
  refine (List.Perm.swap _ _ _).trans (.cons _ ?_)
  simpa using hinner.symm

/-- `WriteCallback` for the oldest request. -/
theorem turn_sent (hi : heap.Inventory (t.held heap++rest)) (hv : t.Valid heap)
    (hwrites : t.writes = req::writes) (hbuf : bufOf heap req = some buf)
    (hchars : charsOf heap buf = some bytes) :
    Turn heap t rest [] ((heap.free buf).free req) { t with writes := writes } bytes [] := by
  have hi₁ := hi.perm (held_perm hwrites hbuf)
  have hi₂ := hi₁.free
  have hframe : ∀ p ∈ Stream.held heap { t with writes := writes }++rest,
      ((heap.free buf).free req).read p = heap.read p := fun p hp => by
    rw [read_free_of_mem hi₂ hp,read_free_of_mem hi₁ (List.mem_cons_of_mem _ hp)]
  have hown : ∀ p ∈ Stream.held heap { t with writes := writes },
      ((heap.free buf).free req).read p = heap.read p :=
    fun p hp => hframe p (List.mem_append_left _ hp)
  have hvalid : Stream.Valid heap { t with writes := writes } :=
    ⟨hv.base,fun r hr => hv.writes r (by rw [hwrites]; exact List.mem_cons_of_mem _ hr)⟩
  refine ⟨?_,fun p hp => hframe p (List.mem_append_right _ hp),hvalid.congr hown,?_⟩
  · rw [Stream.held_congr hown]
    exact hi₂.free
  · rw [textOf_congr fun p hp => hown p (Stream.blocksOf_subset hp),hwrites]
    simp [textOf,hbuf,hchars]

end Turns

/-- What the stream `i` has been sent of a request, and how it can be left out: `uv_write` or the
write itself has failed. -/
def Event.sentTo (i : ℕ) : Event → List UInt8
  | .sent j bytes _ => if j = i then bytes else []
  | _ => []

def Event.receivedFrom (i : ℕ) : Event → List UInt8
  | .received j chunk _ => if j = i then chunk else []
  | _ => []

def Event.drops (i : ℕ) : Event → Bool
  | .received j _ queued => decide (j = i) && !queued
  | .sent j _ success => decide (j = i) && !success
  | _ => false

/-- The number of blocks that are not freed for good. -/
def Event.leaks : Event → ℕ
  | .ended _ => 1
  | .received _ _ false => 2
  | _ => 0

def State.pending (s : State) (i : ℕ) : List UInt8 :=
  ((s.streams[i]?).map fun t => textOf s.heap t.writes).getD []

/-- What has been received on a stream is sent, or still to be sent, in upper case. -/
def Echoes (past : List Event) (s : State) : Prop :=
  ∀ i, (∀ e ∈ past, e.drops i = false) → past.flatMap (Event.sentTo i)++s.pending i =
    (past.flatMap (Event.receivedFrom i)).map toupper

section Runs
variable {s u : State} {i : ℕ} {t t' : Stream} {heap' : Heap Block} {lost added : List Ptr} {e : Event}
  {past : List Event} {sent queued : List UInt8}

theorem sound_init : Sound init [] := ⟨Heap.Inventory.empty,by rintro t ⟨⟩⟩

theorem echoes_init : Echoes [] init := fun _ _ => rfl

/-- The blocks that do not belong to the stream `i`. -/
def State.others (s : State) (i : ℕ) (lost : List Ptr) : List Ptr :=
  (s.streams.eraseIdx i).flatMap (Stream.held s.heap)++lost

theorem Sound.own (h : Sound s lost) (ht : s.streams[i]? = some t) :
    s.heap.Inventory (t.held s.heap++s.others i lost) ∧ t.Valid s.heap := by
  obtain ⟨hi,rfl⟩ := List.getElem?_eq_some_iff.mp ht
  refine ⟨h.blocks.perm ?_,h.valid _ (List.getElem_mem hi)⟩
  have hperm := (List.getElem_cons_eraseIdx_perm hi).flatMap_right (Stream.held s.heap)
  rw [State.others,← List.append_assoc]
  exact hperm.append_right lost

theorem Sound.turn (h : Sound s lost) (ht : s.streams[i]? = some t)
    (hturn : Turn s.heap t (s.others i lost) added heap' t' sent queued) :
    Sound (s.update i t' heap') (added++lost) := by
  obtain ⟨hi,_⟩ := List.getElem?_eq_some_iff.mp ht
  have hother : ∀ r ∈ s.streams.eraseIdx i, ∀ p ∈ r.held s.heap, heap'.read p = s.heap.read p :=
    fun r hr p hp => hturn.frame p (List.mem_append_left _ (List.mem_flatMap.mpr ⟨r,hr,hp⟩))
  have hperm := List.set_perm_cons_eraseIdx hi t'
  refine ⟨?_,fun r hr => ?_⟩
  · refine hturn.blocks.perm ?_
    have hsame : (s.streams.eraseIdx i).flatMap (Stream.held heap') =
        (s.streams.eraseIdx i).flatMap (Stream.held s.heap) :=
      List.flatMap_congr fun r hr => Stream.held_congr (hother r hr)
    have hheld := hperm.flatMap_right (Stream.held heap')
    rw [List.flatMap_cons,hsame] at hheld
    refine (hheld.append_right (added++lost)).trans ?_
    rw [List.append_assoc,State.others]
    exact .append_left _ (List.perm_append_comm_assoc _ _ _)
  · rcases List.mem_cons.mp (hperm.subset hr) with rfl | hold
    · exact hturn.valid
    · exact (h.valid r (List.mem_of_mem_eraseIdx hold)).congr (hother r hold)

/-- The callback has sent the front of what was to be sent and added the rest of it. -/
theorem Echoes.turn (h : Echoes past s) (ht : s.streams[i]? = some t)
    (hturn : Turn s.heap t (s.others i lost) added heap' t' sent queued)
    (hsent : ∀ j, e.sentTo j = if i = j then sent else [])
    (hqueued : ∀ j, e.drops j = false →
      (e.receivedFrom j).map toupper = if i = j then queued else []) :
    Echoes (past++[e]) (s.update i t' heap') := by
  obtain ⟨hi,_⟩ := List.getElem?_eq_some_iff.mp ht
  intro j hkept
  rw [List.forall_mem_append,List.forall_mem_singleton] at hkept
  have hj := h j hkept.1
  have hnew := hqueued j hkept.2
  rw [List.flatMap_append,List.flatMap_append,List.flatMap_singleton,List.flatMap_singleton,
    List.map_append,hnew,hsent j,← hj]
  by_cases hij : i = j
  · subst hij
    have hafter : (s.update i t' heap').pending i = textOf heap' t'.writes := by
      simp [State.pending,State.update,hi]
    have hbefore : s.pending i = textOf s.heap t.writes := by simp [State.pending,ht]
    rw [if_pos rfl,if_pos rfl,hafter,hbefore,List.append_assoc,hturn.text,List.append_assoc]
  · have hafter : (s.update i t' heap').pending j = s.pending j := by
      simp only [State.pending,State.update,List.getElem?_set_ne hij]
      cases hr : s.streams[j]? with
      | none => rfl
      | some r =>
        have hmem : r ∈ s.streams.eraseIdx i :=
          List.mem_eraseIdx_iff_getElem?.mpr ⟨j,Ne.symm hij,hr⟩
        simp only [Option.map_some,Option.getD_some]
        exact textOf_congr fun p hp => hturn.frame p (List.mem_append_left _
          (List.mem_flatMap.mpr ⟨r,hmem,Stream.blocksOf_subset hp⟩))
    rw [if_neg hij,if_neg hij,List.append_nil,List.append_nil,hafter]

theorem Sound.connected (h : Sound s lost) (reading : Bool) :
    Sound { s with
      heap := s.heap.alloc .client
      streams := s.streams++[⟨s.heap.top,reading,none,[]⟩] } lost := by
  have hsame : ∀ r ∈ s.streams, ∀ p ∈ r.held s.heap,
      (s.heap.alloc .client).read p = s.heap.read p := fun r hr p hp =>
    Heap.read_alloc_of_ne (lt_top_of_mem h.blocks
      (List.mem_append_left _ (List.mem_flatMap.mpr ⟨r,hr,hp⟩))).ne
  refine ⟨?_,fun r hr => ?_⟩
  · have hheld : s.streams.flatMap (Stream.held (s.heap.alloc .client)) =
        s.streams.flatMap (Stream.held s.heap) :=
      List.flatMap_congr fun r hr => Stream.held_congr (hsame r hr)
    rw [List.flatMap_append,hheld,List.flatMap_singleton,List.append_assoc]
    exact (h.blocks.alloc .client).perm List.perm_middle
  · rcases List.mem_append.mp hr with hold | hnew
    · exact (h.valid r hold).congr (hsame r hold)
    · obtain rfl := List.mem_singleton.mp hnew
      exact ⟨by rintro p ⟨⟩,by rintro req ⟨⟩⟩

theorem Echoes.connected (he : Echoes past s) (h : Sound s lost) (reading : Bool) :
    Echoes (past++[.connected]) { s with
      heap := s.heap.alloc .client
      streams := s.streams++[⟨s.heap.top,reading,none,[]⟩] } := by
  intro j hkept
  have hpending : State.pending { s with
      heap := s.heap.alloc .client
      streams := s.streams++[⟨s.heap.top,reading,none,[]⟩] } j = s.pending j := by
    simp only [State.pending,List.getElem?_append]
    split_ifs with hj
    · cases hr : s.streams[j]? with
      | none => rfl
      | some r =>
        refine textOf_congr fun p hp => Heap.read_alloc_of_ne (lt_top_of_mem h.blocks ?_).ne
        exact List.mem_append_left _ (List.mem_flatMap.mpr
          ⟨r,List.mem_of_getElem? hr,Stream.blocksOf_subset hp⟩)
    · rw [List.getElem?_eq_none (Nat.le_of_not_lt hj)]
      cases j-s.streams.length <;> rfl
  rw [hpending,List.flatMap_append,List.flatMap_append]
  simpa [Event.sentTo,Event.receivedFrom] using he j fun e he => hkept e (List.mem_append_left _ he)

/-- Events that tell nothing about the text on the streams. -/
theorem Echoes.silent (he : Echoes past s) (hpending : ∀ j, u.pending j = s.pending j)
    (hsent : ∀ j, e.sentTo j = []) (hreceived : ∀ j, e.receivedFrom j = []) :
    Echoes (past++[e]) u := by
  intro j hkept
  have hj := he j fun e he => hkept e (List.mem_append_left _ he)
  rw [hpending j,List.flatMap_append,List.flatMap_append]
  simpa [hsent j,hreceived j] using hj

theorem Sound.change (h : Sound s lost) (he : Echoes past s) (hc : Change s e u) :
    ∃ added, added.length = e.leaks ∧ Sound u (added++lost) ∧ Echoes (past++[e]) u := by
  cases hc with
  | connected => exact ⟨[],rfl,h.connected _,he.connected h _⟩
  | notConnected => exact ⟨[],rfl,h,he.silent (fun _ => rfl) (fun _ => rfl) fun _ => rfl⟩
  | exited => exact ⟨[],rfl,⟨h.blocks,h.valid⟩,he.silent (fun _ => rfl) (fun _ => rfl) fun _ => rfl⟩
  | @outOfMemory i t ht hbase =>
    obtain ⟨hi,hv⟩ := h.own ht
    have hturn : Turn s.heap t (s.others i lost) [] s.heap { t with base := some none } [] [] :=
      turn_idle hi hv rfl rfl (by rw [hbase]; rfl) rfl
    exact ⟨[],rfl,h.turn ht hturn,he.turn ht hturn (by simp [Event.sentTo])
      (by simp [Event.receivedFrom])⟩
  | @noBuffer i t reading ht hbase =>
    obtain ⟨hi,hv⟩ := h.own ht
    have hturn : Turn s.heap t (s.others i lost) [] s.heap
        { t with reading := reading, base := none } [] [] :=
      turn_idle hi hv rfl rfl (by rw [hbase]; rfl) rfl
    exact ⟨[],rfl,h.turn ht hturn,he.turn ht hturn (by simp [Event.sentTo])
      (by simp [Event.receivedFrom])⟩
  | @allocated i t bytes ht hbase =>
    obtain ⟨hi,hv⟩ := h.own ht
    have hturn : Turn s.heap t (s.others i lost) [] (s.heap.alloc (.chars bytes))
        { t with base := some (some s.heap.top) } [] [] := turn_allocated hi hv rfl rfl hbase rfl
    exact ⟨[],rfl,h.turn ht hturn,he.turn ht hturn (by simp [Event.sentTo])
      (by simp [Event.receivedFrom])⟩
  | @ended i t base ht hbase =>
    obtain ⟨hi,hv⟩ := h.own ht
    have hturn : Turn s.heap t (s.others i lost) [base] s.heap
        { t with reading := false, base := none } [] [] := turn_ended hi hv rfl hbase rfl rfl
    exact ⟨[base],rfl,h.turn ht hturn,he.turn ht hturn (by simp [Event.sentTo])
      (by simp [Event.receivedFrom])⟩
  | @failed i t base reading ht hbase =>
    obtain ⟨hi,hv⟩ := h.own ht
    have hturn : Turn s.heap t (s.others i lost) [] (s.heap.free base)
        { t with reading := reading, base := none } [] [] := turn_failed hi hv rfl hbase rfl rfl
    exact ⟨[],rfl,h.turn ht hturn,he.turn ht hturn (by simp [Event.sentTo])
      (by simp [Event.receivedFrom])⟩
  | @notQueued i t base chunk block ht hbase =>
    obtain ⟨hi,hv⟩ := h.own ht
    have hturn : Turn s.heap t (s.others i lost) [s.heap.top+1,s.heap.top]
        ((newRequest s.heap (upcase (fill block chunk) chunk.length)).free base)
        { t with base := none } [] [] := turn_notQueued hi hv rfl hbase rfl rfl
    refine ⟨_,rfl,h.turn ht hturn,he.turn ht hturn (by simp [Event.sentTo]) fun j hj => ?_⟩
    have hij : ¬ i = j := by simpa [Event.drops] using hj
    simp [Event.receivedFrom,hij]
  | @queued i t base chunk block ht hbase =>
    obtain ⟨hi,hv⟩ := h.own ht
    have hturn : Turn s.heap t (s.others i lost) []
        ((newRequest s.heap (upcase (fill block chunk) chunk.length)).free base)
        { t with base := none, writes := t.writes++[s.heap.top] } []
        (upcase (fill block chunk) chunk.length) := turn_queued hi hv rfl hbase rfl rfl
    refine ⟨[],rfl,h.turn ht hturn,he.turn ht hturn (by simp [Event.sentTo]) fun j _ => ?_⟩
    rw [upcase_fill,Event.receivedFrom]
    split_ifs <;> rfl
  | @sent i t req buf writes bytes success ht hwrites hbuf hchars =>
    obtain ⟨hi,hv⟩ := h.own ht
    have hturn := turn_sent hi hv hwrites hbuf hchars
    exact ⟨[],rfl,h.turn ht hturn,he.turn ht hturn (fun _ => rfl) (by simp [Event.receivedFrom])⟩

/-- The calls that `libuv` makes back. -/
def Action.Due (s : State) : Action → Prop
  | .connection _ _ => s.exited = false
  | .alloc i _ => ∃ t, s.stream i = some t ∧ t.reading = true ∧ t.base = none
  | .read i chunk _ => ∃ t base, s.stream i = some t ∧ t.base = some (some base) ∧
      ∀ block, charsOf s.heap base = some block → chunk.length ≤ block.length
  | .eof i => ∃ t base, s.stream i = some t ∧ t.base = some (some base)
  | .error i _ => ∃ t, s.stream i = some t ∧ t.base ≠ none
  | .write i _ => ∃ t, s.stream i = some t ∧ t.writes ≠ []

theorem exists_release {heap : Heap Block} {p : Ptr} (h : (heap.read p).isSome) :
    heap.release p = some (heap.free p) := by
  obtain ⟨c,hc⟩ := Option.isSome_iff_exists.mp h
  exact Heap.release_eq hc

/-- A callback uses no block that has been freed, and frees none a second time. -/
theorem Sound.isSome_step (h : Sound s lost) {action : Action} (hdue : action.Due s) :
    (step s action).isSome := by
  cases action with
  | connection success reading =>
    have hexited : s.exited = false := hdue
    cases success <;> simp [step,hexited]
  | alloc i block =>
    obtain ⟨t,ht,hreading,hbase⟩ := hdue
    cases block <;> simp [step,ht,hreading,hbase]
  | read i chunk outcome =>
    obtain ⟨t,base,ht,hbase,hlength⟩ := hdue
    obtain ⟨hi,hv⟩ := h.own (State.stream_eq ht).2
    obtain ⟨block,hblock⟩ := Option.isSome_iff_exists.mp (hv.base base hbase)
    rw [held_of_base hbase] at hi
    have hmem : base ∈ t.client::base::blocksOf s.heap t.writes++s.others i lost := by simp
    have hlive := (hi.live base).mpr hmem
    have hread := @read_newRequest_of_lt s.heap base (upcase (fill block chunk) chunk.length)
      (lt_top_of_mem hi hmem)
    rw [← hread] at hlive
    cases outcome <;> simp [step,ht,hbase,hblock,hlength block hblock,exists_release hlive]
  | eof i =>
    obtain ⟨t,base,ht,hbase⟩ := hdue
    simp [step,ht,hbase]
  | error i reading =>
    obtain ⟨t,ht,hbase⟩ := hdue
    obtain ⟨hi,hv⟩ := h.own (State.stream_eq ht).2
    cases hb : t.base with
    | none => exact absurd hb hbase
    | some base =>
      cases base with
      | none => simp [step,ht,hb]
      | some base =>
        rw [held_of_base hb] at hi
        have hlive := (hi.live base).mpr (by simp)
        simp [step,ht,hb,exists_release hlive]
  | write i success =>
    obtain ⟨t,ht,hwrites⟩ := hdue
    obtain ⟨hi,hv⟩ := h.own (State.stream_eq ht).2
    obtain ⟨req,writes,hreq⟩ := List.exists_cons_of_ne_nil hwrites
    obtain ⟨buf,bytes,hbuf,hchars⟩ := hv.writes req (by rw [hreq]; exact List.mem_cons_self)
    have hi₁ := hi.perm (held_perm hreq hbuf)
    have hlive₁ := (hi₁.live buf).mpr List.mem_cons_self
    have hlive₂ := (hi₁.free.live req).mpr List.mem_cons_self
    simp [step,ht,hreq,hbuf,hchars,freeRequest,exists_release hlive₁,exists_release hlive₂]

/-- The blocks in use: a `uv_tcp_t` for each stream, the buffers to be read into, two blocks for each
request under way, and the lost ones. -/
theorem Sound.ncard_live (h : Sound s lost) : {p | (s.heap.read p).isSome}.ncard =
    s.streams.length+s.streams.countP (fun t => t.base.join.isSome)+
      2*(s.streams.map fun t => t.writes.length).sum+lost.length := by
  rw [h.blocks.ncard_live,List.length_append,List.length_flatMap]
  congr 1
  have hmap : s.streams.map (fun t => (t.held s.heap).length) = s.streams.map fun t =>
      1+(if t.base.join.isSome then 1 else 0)+2*t.writes.length :=
    List.map_congr_left fun t ht => Stream.length_held (h.valid t ht)
  rw [hmap]
  induction s.streams with
  | nil => rfl
  | cons t streams ih =>
    simp only [List.map_cons,List.sum_cons,List.length_cons,List.countP_cons,ih]
    split_ifs <;> omega

theorem sound_run {actions : List Action} {events : List Event}
    (hr : Machine.run step init actions = some (s,events)) :
    Echoes events s ∧ ∃ lost, lost.length = (events.map Event.leaks).sum ∧ Sound s lost := by
  have hinit : Echoes [] init ∧
      ∃ lost, lost.length = (([] : List Event).map Event.leaks).sum ∧ Sound init lost :=
    ⟨echoes_init,[],rfl,sound_init⟩
  refine Machine.run_invariant (fun past s => Echoes past s ∧
    ∃ lost, lost.length = (past.map Event.leaks).sum ∧ Sound s lost) ?_ hinit hr
  rintro past s action u e ⟨he,lost,hlength,h⟩ hs
  obtain ⟨added,hadded,hsound,hechoes⟩ := h.change he (change_of_step hs)
  refine ⟨hechoes,_,?_,hsound⟩
  rw [List.length_append,hadded,hlength]
  simp [Nat.add_comm]

/-- A client sends `hi` and goes, and the answer is written after that. -/
def oneClient : List Action :=
  [.connection true true,.alloc 0 (some [0,0,0,0]),.read 0 [104,105] .queued,
    .alloc 0 (some [0,0,0,0]),.eof 0,.write 0 true]

end Runs

end CStudy.UpcaseServer.Evented
