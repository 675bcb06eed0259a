import CStudy.Foundation.Machine
import Mathlib.Data.List.Basic

/-! Calls by several threads whose bodies run under one mutex. A body is executed statement by
statement, and between any two statements of one thread the others may run. What the callers see is
the history of their invocations and returns; it is linearizable if one point can be put between
the two ends of each call such that the calls, taken in the order of their points, are a run of the
machine that does a whole body at once. -/
namespace CStudy.Foundation

/-- A body on a shared state. A statement reads and assigns the state at once; it is undefined, or
gives a value to the statements behind it. -/
inductive Code (σ ο : Type) : Type 1
  | ret (o : ο)
  | act {β : Type} (f : σ → Option (σ × β)) (rest : β → Code σ ο)

namespace Code
variable {σ ο α β : Type}

/-- All statements with nothing in between. -/
def run : Code σ ο → σ → Option (σ × ο)
  | ret o,s => some (s,o)
  | act f rest,s => (f s).bind fun r => (rest r.2).run r.1

def bind : Code σ α → (α → Code σ ο) → Code σ ο
  | ret a,k => k a
  | act f rest,k => act f fun b => (rest b).bind k

/-- A statement that only reads. -/
def read (f : σ → Option α) : Code σ α := act (fun s => (f s).map fun a => (s,a)) ret

/-- A statement that only assigns. -/
def assign (f : σ → Option σ) : Code σ Unit := act (fun s => (f s).map fun t => (t,())) ret

variable {s : σ}

@[simp] theorem run_ret (o : ο) : (ret o : Code σ ο).run s = some (s,o) := rfl

@[simp] theorem run_bind (c : Code σ α) (k : α → Code σ ο) :
    (c.bind k).run s = (c.run s).bind fun r => (k r.2).run r.1 := by
  induction c generalizing s with
  | ret a => rfl
  | act f rest ih =>
    rw [bind,run,run,Option.bind_assoc]
    congr 1
    funext r
    exact ih r.2

@[simp] theorem run_read (f : σ → Option α) : (read f).run s = (f s).map fun a => (s,a) := by
  cases h : f s <;> simp [read,run,h]

@[simp] theorem run_assign (f : σ → Option σ) : (assign f).run s = (f s).map fun t => (t,()) := by
  cases h : f s <;> simp [assign,run,h]

/-- A statement with no defined effect. -/
def undefined : Code σ ο := act (fun _ => (none : Option (σ × Empty))) Empty.elim

@[simp] theorem run_undefined : (undefined : Code σ ο).run s = none := rfl

instance : Monad (Code σ) where
  pure := ret
  bind := bind

@[simp] theorem run_pure (o : ο) : (pure o : Code σ ο).run s = some (s,o) := rfl

@[simp] theorem run_monadBind (c : Code σ α) (k : α → Code σ ο) :
    (c >>= k).run s = (c.run s).bind fun r => (k r.2).run r.1 := run_bind c k

end Code

namespace Monitor
variable {σ ι ο : Type}

/-- Where a thread is: outside, before the lock, in the body with the statements that are left, or
behind the unlock. -/
inductive Phase (σ ι ο : Type) : Type 1
  | idle
  | entering (c : ι)
  | inside (c : ι) (code : Code σ ο)
  | leaving (o : ο)

/-- `holder` is the thread that has locked the mutex. -/
structure Config (σ ι ο : Type) : Type 1 where
  shared : σ
  holder : Option ℕ
  threads : List (Phase σ ι ο)

inductive Turn (ι : Type)
  | invoke (i : ℕ) (c : ι)
  | lock (i : ℕ)
  | exec (i : ℕ)
  | unlock (i : ℕ)
  | leave (i : ℕ)

/-- What happens in a turn. `passed` is the unlock at the end of a body; no caller sees it. -/
inductive Event (ι ο : Type)
  | invoked (i : ℕ) (c : ι)
  | silent (i : ℕ)
  | passed (i : ℕ) (c : ι) (o : ο)
  | returned (i : ℕ) (o : ο)

namespace Event

def thread : Event ι ο → ℕ
  | invoked i _ => i
  | silent i => i
  | passed i _ _ => i
  | returned i _ => i

/-- The two ends of a call. -/
def visible : Event ι ο → Bool
  | invoked _ _ => true
  | returned _ _ => true
  | _ => false

def call : Event ι ο → Option ι
  | passed _ c _ => some c
  | _ => none

def reply : Event ι ο → Option ο
  | passed _ _ o => some o
  | _ => none

end Event

def start (s : σ) (threads : ℕ) : Config σ ι ο := ⟨s,none,List.replicate threads .idle⟩

/-- The turns of threads that call bodies under the mutex. A lock waits until nobody holds it. -/
def step (body : ι → Code σ ο) : Machine (Config σ ι ο) (Turn ι) (Event ι ο)
  | s,.invoke i c =>
    match s.threads[i]? with
    | some .idle => some ({ s with threads := s.threads.set i (.entering c) },.invoked i c)
    | _ => none
  | s,.lock i =>
    match s.threads[i]?,s.holder with
    | some (.entering c),none =>
      some ({ s with holder := some i, threads := s.threads.set i (.inside c (body c)) },.silent i)
    | _,_ => none
  | s,.exec i =>
    match s.threads[i]? with
    | some (.inside c (.act f rest)) =>
      (f s.shared).map fun r =>
        ({ s with shared := r.1, threads := s.threads.set i (.inside c (rest r.2)) },.silent i)
    | _ => none
  | s,.unlock i =>
    match s.threads[i]? with
    | some (.inside c (.ret o)) =>
      some ({ s with holder := none, threads := s.threads.set i (.leaving o) },.passed i c o)
    | _ => none
  | s,.leave i =>
    match s.threads[i]? with
    | some (.leaving o) => some ({ s with threads := s.threads.set i .idle },.returned i o)
    | _ => none

/-- What the events of one thread leave it in. -/
inductive Stage (ι ο : Type)
  | outside
  | called (c : ι)
  | answered (o : ο)
  deriving DecidableEq

/-- An event that is not the end of a body adds no call. -/
theorem run_concat_of_none {whole : Machine σ ι ο} {s₀ base : σ} {past : List (Event ι ο)}
    {e : Event ι ο} (hrun : Machine.run whole s₀ (past.filterMap Event.call) =
      some (base,past.filterMap Event.reply)) (hcall : e.call = none) (hreply : e.reply = none) :
    Machine.run whole s₀ ((past++[e]).filterMap Event.call) =
      some (base,(past++[e]).filterMap Event.reply) := by
  simpa [hcall,hreply] using hrun

/-- A thread in a body after one phase is replaced: the same one, or another one as before. -/
theorem inside_of_set {threads : List (Phase σ ι ο)} {i j : ℕ} {p p' : Phase σ ι ο} {c : ι}
    {code : Code σ ο} (hp : threads[i]? = some p)
    (hj : (threads.set i p')[j]? = some (.inside c code)) :
    (i = j ∧ p' = .inside c code) ∨ (i ≠ j ∧ threads[j]? = some (.inside c code)) := by
  obtain ⟨hlt,_⟩ := List.getElem?_eq_some_iff.mp hp
  by_cases hij : i = j
  · subst hij
    rw [List.getElem?_set_self hlt] at hj
    exact .inl ⟨rfl,Option.some.inj hj⟩
  · rw [List.getElem?_set_ne hij] at hj
    exact .inr ⟨hij,hj⟩

def Turn.isInvoke : Turn ι → Bool
  | .invoke _ _ => true
  | _ => false

def Phase.isIdle : Phase σ ι ο → Bool
  | .idle => true
  | _ => false

section Completion
variable (body : ι → Code σ ο) {s t : Config σ ι ο} {i : ℕ} {c : ι} {code : Code σ ο} {u : σ} {o : ο}

/-- The rest of a body, executed without a break. -/
theorem run_exec (hp : s.threads[i]? = some (.inside c code)) (hrun : code.run s.shared = some (u,o)) :
    ∃ k events, Machine.run (Monitor.step body) s (List.replicate k (.exec i)) =
      some ({ s with shared := u, threads := s.threads.set i (.inside c (.ret o)) },events) := by
  induction code generalizing s with
  | ret o' =>
    cases hrun
    obtain ⟨hlt,hget⟩ := List.getElem?_eq_some_iff.mp hp
    refine ⟨0,[],?_⟩
    rw [← hget,List.set_getElem_self]
    rfl
  | act f rest ih =>
    rw [Code.run,Option.bind_eq_some_iff] at hrun
    obtain ⟨r,hf,hrest⟩ := hrun
    obtain ⟨hlt,_⟩ := List.getElem?_eq_some_iff.mp hp
    obtain ⟨k,events,hk⟩ := ih r.2 (s := { s with
      shared := r.1, threads := s.threads.set i (.inside c (rest r.2)) })
      (List.getElem?_set_self hlt) hrest
    have hstep : Monitor.step body s (.exec i) = some ({ s with
        shared := r.1, threads := s.threads.set i (.inside c (rest r.2)) },.silent i) := by
      simp only [Monitor.step,hp,hf,Option.map_some]
    refine ⟨k+1,.silent i::events,?_⟩
    rw [List.replicate_succ,Machine.run_cons hstep,hk,List.set_set]
    rfl

/-- From a state in `Inv` every body returns, and to a state in `Inv`. -/
def Total (body : ι → Code σ ο) (Inv : σ → Prop) : Prop :=
  ∀ s c, Inv s → ∃ t o, (body c).run s = some (t,o) ∧ Inv t

/-- The mutex is free, the shared state is in `Inv` and nobody is in a body, or its holder is in a
body that leads to `Inv`. -/
structure Runnable (Inv : σ → Prop) (s : Config σ ι ο) : Prop where
  free : s.holder = none → Inv s.shared
  held : ∀ i, s.holder = some i → ∃ c code t o, s.threads[i]? = some (.inside c code) ∧
    code.run s.shared = some (t,o) ∧ Inv t
  only : ∀ i c code, s.threads[i]? = some (.inside c code) → s.holder = some i

variable {Inv : σ → Prop}

theorem Runnable.finish (h : Runnable Inv s) (hi : s.holder = some i) :
    ∃ turns events t, Machine.run (Monitor.step body) s turns = some (t,events) ∧
      (∀ a ∈ turns, a.isInvoke = false) ∧ t.threads = s.threads.set i .idle ∧ Runnable Inv t := by
  obtain ⟨c,code,u,o,hp,hrun,hInv⟩ := h.held i hi
  obtain ⟨k,events,hk⟩ := run_exec body hp hrun
  obtain ⟨hlt,_⟩ := List.getElem?_eq_some_iff.mp hp
  refine ⟨List.replicate k (.exec i)++[.unlock i,.leave i],
    events++[.passed i c o,.returned i o],⟨u,none,s.threads.set i .idle⟩,?_,?_,rfl,?_⟩
  · refine Machine.run_append.mpr ⟨_,events,[.passed i c o,.returned i o],hk,?_,rfl⟩
    simp [Machine.run,Monitor.step,hlt]
  · intro a ha
    rcases List.mem_append.mp ha with ha | ha
    · rw [List.eq_of_mem_replicate ha]
      rfl
    · simp only [List.mem_cons,List.not_mem_nil,or_false] at ha
      rcases ha with rfl | rfl <;> rfl
  · refine ⟨fun _ => hInv,fun j hj => (by cases hj),?_⟩
    intro j d code' hj
    rcases inside_of_set hp hj with ⟨_,hend⟩ | ⟨hij,hj⟩
    · cases hend
    · exact absurd (Option.some.inj (hi.symm.trans (h.only j d code' hj))) hij

variable {body}

/-- Some thread that is in a call can be brought out of it. -/
theorem Runnable.progress (htotal : Total body Inv) (h : Runnable Inv s)
    (hbusy : ∃ (i : ℕ) (p : Phase σ ι ο), s.threads[i]? = some p ∧ p.isIdle = false) :
    ∃ i p turns events t, s.threads[i]? = some p ∧ p.isIdle = false ∧
      Machine.run (Monitor.step body) s turns = some (t,events) ∧
      (∀ a ∈ turns, a.isInvoke = false) ∧ t.threads = s.threads.set i .idle ∧ Runnable Inv t := by
  cases hholder : s.holder with
  | some i =>
    obtain ⟨c,code,_,_,hp,_⟩ := h.held i hholder
    obtain ⟨turns,events,t,hrun,hturns,ht,hR⟩ := h.finish body hholder
    exact ⟨i,_,turns,events,t,hp,rfl,hrun,hturns,ht,hR⟩
  | none =>
    obtain ⟨i,p,hp,hidle⟩ := hbusy
    obtain ⟨hlt,_⟩ := List.getElem?_eq_some_iff.mp hp
    cases p with
    | idle => cases hidle
    | inside c code => cases hholder.symm.trans (h.only i c code hp)
    | leaving o =>
      refine ⟨i,.leaving o,[.leave i],[.returned i o],{ s with threads := s.threads.set i .idle },hp,rfl,
        ?_,?_,rfl,?_⟩
      · simp [Machine.run,Monitor.step,hp]
      · simp [Turn.isInvoke]
      · refine ⟨h.free,fun j hj => ?_,fun j d code hj => ?_⟩
        · cases hholder.symm.trans hj
        · rcases inside_of_set hp hj with ⟨_,hend⟩ | ⟨_,hj⟩
          · cases hend
          · exact h.only j d code hj
    | entering c =>
      -- the mutex is free: take it, and go through the body
      obtain ⟨u,o,hbody,hInv⟩ := htotal s.shared c (h.free hholder)
      have hR : Runnable Inv { s with
          holder := some i, threads := s.threads.set i (.inside c (body c)) } := by
        refine ⟨fun hn => (by cases hn),?_,?_⟩
        · rintro j ⟨rfl⟩
          exact ⟨c,body c,u,o,List.getElem?_set_self hlt,hbody,hInv⟩
        · intro j d code hj
          rcases inside_of_set hp hj with ⟨hij,_⟩ | ⟨_,hj⟩
          · rw [hij]
          · cases hholder.symm.trans (h.only j d code hj)
      obtain ⟨turns,events,t,hrun,hturns,ht,hR'⟩ := hR.finish body rfl
      have hlock : Monitor.step body s (.lock i) = some ({ s with
          holder := some i, threads := s.threads.set i (.inside c (body c)) },.silent i) := by
        simp only [Monitor.step,hp,hholder]
      refine ⟨i,.entering c,.lock i::turns,.silent i::events,t,hp,rfl,?_,?_,?_,hR'⟩
      · rw [Machine.run_cons hlock,hrun]
        rfl
      · intro a ha
        rcases List.mem_cons.mp ha with rfl | ha
        · rfl
        · exact hturns a ha
      · rw [ht,List.set_set]

/-- Every call that is under way can be brought to its end, whatever the threads have done so far. -/
theorem Runnable.complete (htotal : Total body Inv) (h : Runnable Inv s) :
    ∃ turns events t, Machine.run (Monitor.step body) s turns = some (t,events) ∧
      (∀ a ∈ turns, a.isInvoke = false) ∧ ∀ p ∈ t.threads, p.isIdle = true := by
  induction hm : s.threads.countP (fun p => !p.isIdle) using Nat.strong_induction_on generalizing s with
  | _ m ih =>
    by_cases hbusy : ∃ (i : ℕ) (p : Phase σ ι ο), s.threads[i]? = some p ∧ p.isIdle = false
    · obtain ⟨i,p,turns,events,t,hp,hidle,hrun,hturns,ht,hR⟩ := h.progress htotal hbusy
      obtain ⟨hlt,hget⟩ := List.getElem?_eq_some_iff.mp hp
      have hcount : t.threads.countP (fun p => !p.isIdle) < m := by
        have hpos : 0 < s.threads.countP (fun p => !p.isIdle) :=
          List.countP_pos_iff.mpr ⟨p,List.mem_of_getElem? hp,by simp [hidle]⟩
        rw [ht,List.countP_set hlt,hget]
        have hold : (!p.isIdle) = true := by rw [hidle]; rfl
        have hnew : ¬ (!(Phase.idle : Phase σ ι ο).isIdle) = true := by simp [Phase.isIdle]
        rw [if_pos hold,if_neg hnew]
        omega
      obtain ⟨turns',events',t',hrun',hturns',hall⟩ := ih _ hcount hR rfl
      refine ⟨turns++turns',events++events',t',?_,?_,hall⟩
      · exact Machine.run_append.mpr ⟨t,events,events',hrun,hrun',rfl⟩
      · intro a ha
        rcases List.mem_append.mp ha with ha | ha
        · exact hturns a ha
        · exact hturns' a ha
    · refine ⟨[],[],s,rfl,by simp,?_⟩
      intro p hp
      obtain ⟨i,hlt,rfl⟩ := List.getElem_of_mem hp
      by_contra hidle
      exact hbusy ⟨i,s.threads[i],List.getElem?_eq_getElem hlt,by simpa using hidle⟩

/-- A run of the machine that does whole bodies stays in `Inv`. -/
theorem Total.run (htotal : Total body Inv) {s t : σ} {cs : List ι} {os : List ο} (hs : Inv s)
    (hr : Machine.run (fun s c => (body c).run s) s cs = some (t,os)) : Inv t := by
  induction cs generalizing s os with
  | nil =>
    cases hr
    exact hs
  | cons c cs ih =>
    obtain ⟨u,o,os',hc,hrest,rfl⟩ := Machine.run_cons_eq_some.mp hr
    obtain ⟨v,o',hrun,hv⟩ := htotal s c hs
    cases hrun.symm.trans hc
    exact ih hv hrest

end Completion

variable [DecidableEq ι] [DecidableEq ο]

/-- An invocation, a point and a return follow each other, of the same call and the same reply. -/
def Stage.next : Stage ι ο → Event ι ο → Option (Stage ι ο)
  | outside,.invoked _ c => some (called c)
  | called c,.passed _ c' o => if c' = c then some (answered o) else none
  | answered o,.returned _ o' => if o' = o then some outside else none
  | stage,.silent _ => some stage
  | _,_ => none

/-- Points can be put into the history such that every thread has one between the two ends of each
call it has completed, and the machine, asked the calls in the order of the points, gives the
replies. -/
def Linearizable (whole : Machine σ ι ο) (s : σ) (history : List (Event ι ο)) : Prop :=
  ∃ events : List (Event ι ο), events.filter Event.visible = history ∧
    (∀ i, ((events.filter fun e => e.thread = i).foldlM Stage.next Stage.outside).isSome) ∧
    ∃ t, Machine.run whole s (events.filterMap Event.call) = some (t,events.filterMap Event.reply)

/-- A machine that is matched by another one has no other histories. -/
theorem Linearizable.map {τ : Type} {whole : Machine σ ι ο} {abstract : Machine τ ι ο} {s : σ} {a : τ}
    {history : List (Event ι ο)} (h : Linearizable whole s history)
    (hsim : ∀ cs t os, Machine.run whole s cs = some (t,os) → ∃ b, Machine.run abstract a cs = some (b,os)) :
    Linearizable abstract a history := by
  obtain ⟨events,hvis,htimed,t,hrun⟩ := h
  exact ⟨events,hvis,htimed,hsim _ _ _ hrun⟩

/-- The stage of a thread as its phase shows it. -/
def Phase.stage : Phase σ ι ο → Stage ι ο
  | .idle => .outside
  | .entering c => .called c
  | .inside c _ => .called c
  | .leaving o => .answered o

/-- The bodies that have passed lead to a state `base`; the body that is under way leads from the
shared state to where it would have led from `base`; and exactly the holder is in a body. -/
structure Sound (body : ι → Code σ ο) (s₀ : σ) (past : List (Event ι ο)) (s : Config σ ι ο) :
    Prop where
  timed : ∀ i, (past.filter fun e => e.thread = i).foldlM Stage.next Stage.outside =
    some ((s.threads[i]?.map Phase.stage).getD .outside)
  passed : ∃ base, Machine.run (fun s c => (body c).run s) s₀ (past.filterMap Event.call) =
      some (base,past.filterMap Event.reply) ∧
    (s.holder = none → s.shared = base) ∧
    ∀ i c code, s.threads[i]? = some (.inside c code) →
      s.holder = some i ∧ code.run s.shared = (body c).run base
  held : ∀ i, s.holder = some i → ∃ c code, s.threads[i]? = some (.inside c code)

section Sound
variable {body : ι → Code σ ο} {s₀ : σ} {n : ℕ} {past : List (Event ι ο)} {s t : Config σ ι ο} {e : Event ι ο}
  {p p' : Phase σ ι ο} {i : ℕ} {a : Turn ι}

/-- One event moves the stage of its thread and of no other. -/
theorem timed_concat (ht : ∀ j, (past.filter fun e => e.thread = j).foldlM Stage.next Stage.outside =
      some ((s.threads[j]?.map Phase.stage).getD .outside))
    (hp : s.threads[i]? = some p) (hi : e.thread = i) (hnext : p.stage.next e = some p'.stage) (j : ℕ) :
    ((past++[e]).filter fun e => e.thread = j).foldlM Stage.next Stage.outside =
      some (((s.threads.set i p')[j]?.map Phase.stage).getD .outside) := by
  obtain ⟨hlt,_⟩ := List.getElem?_eq_some_iff.mp hp
  rw [List.filter_append,List.foldlM_append,ht j]
  by_cases hj : i = j
  · subst hj
    rw [List.filter_cons_of_pos (by simpa using hi),List.filter_nil,hp,List.getElem?_set_self hlt]
    simp [hnext]
  · rw [List.filter_cons_of_neg (by simpa [hi] using hj),List.filter_nil,
      List.getElem?_set_ne hj]
    rfl

theorem sound_start (body : ι → Code σ ο) (s₀ : σ) (n : ℕ) : Sound body s₀ [] (start s₀ n) where
  timed i := by
    have hget : (start s₀ n : Config σ ι ο).threads[i]? = if i < n then some .idle else none :=
      List.getElem?_replicate
    rw [hget]
    split_ifs <;> rfl
  passed := by
    refine ⟨s₀,rfl,fun _ => rfl,?_⟩
    intro i c code h
    have hget : (start s₀ n : Config σ ι ο).threads[i]? = if i < n then some .idle else none :=
      List.getElem?_replicate
    rw [hget] at h
    split_ifs at h
    cases h
  held := by
    intro i h
    cases h

/-- A turn that changes neither the shared state nor the holder, and no body. -/
theorem Sound.outside (h : Sound body s₀ past s) (hp : s.threads[i]? = some p) (hi : e.thread = i)
    (hnext : p.stage.next e = some p'.stage) (hcall : e.call = none) (hreply : e.reply = none)
    (hp' : ∀ c code, p ≠ .inside c code ∧ p' ≠ .inside c code) :
    Sound body s₀ (past++[e]) { s with threads := s.threads.set i p' } where
  timed := timed_concat h.timed hp hi hnext
  passed := by
    obtain ⟨base,hrun,hfree,hin⟩ := h.passed
    refine ⟨base,run_concat_of_none hrun hcall hreply,hfree,fun j c code hj => ?_⟩
    rcases inside_of_set hp hj with ⟨_,hinside⟩ | ⟨_,hj⟩
    · exact absurd hinside (hp' c code).2
    · exact hin j c code hj
  held := by
    intro j hj
    obtain ⟨c,code,hc⟩ := h.held j hj
    have hij : i ≠ j := by
      rintro rfl
      rw [hp,Option.some.injEq] at hc
      exact (hp' c code).1 hc
    exact ⟨c,code,by rw [List.getElem?_set_ne hij,hc]⟩

/-- Only the holder can be in a body. -/
theorem Sound.unique {j : ℕ} {c c' : ι} {code code' : Code σ ο} (h : Sound body s₀ past s)
    (hi : s.threads[i]? = some (.inside c code)) (hj : s.threads[j]? = some (.inside c' code')) :
    i = j := by
  obtain ⟨_,_,_,hin⟩ := h.passed
  exact Option.some.inj ((hin i c code hi).1.symm.trans (hin j c' code' hj).1)

/-- The body begins where those that have passed have led. -/
theorem Sound.lock {c : ι} (h : Sound body s₀ past s) (hp : s.threads[i]? = some (.entering c))
    (hholder : s.holder = none) : Sound body s₀ (past++[.silent i])
      { s with holder := some i, threads := s.threads.set i (.inside c (body c)) } where
  timed := timed_concat h.timed hp rfl rfl
  passed := by
    obtain ⟨base,hrun,hfree,hin⟩ := h.passed
    refine ⟨base,run_concat_of_none hrun rfl rfl,fun hn => (by cases hn),fun j d code hj => ?_⟩
    rcases inside_of_set hp hj with ⟨rfl,hinside⟩ | ⟨_,hj⟩
    · cases hinside
      exact ⟨rfl,by rw [hfree hholder]⟩
    · cases hholder.symm.trans (hin j d code hj).1
  held := by
    obtain ⟨hlt,_⟩ := List.getElem?_eq_some_iff.mp hp
    rintro j ⟨rfl⟩
    exact ⟨c,body c,List.getElem?_set_self hlt⟩

/-- A statement, behind which the rest of the body leads to the same state. -/
theorem Sound.exec {β : Type} {c : ι} {f : σ → Option (σ × β)} {rest : β → Code σ ο} {r : σ × β}
    (h : Sound body s₀ past s) (hp : s.threads[i]? = some (.inside c (.act f rest)))
    (hf : f s.shared = some r) : Sound body s₀ (past++[.silent i])
      { s with shared := r.1, threads := s.threads.set i (.inside c (rest r.2)) } := by
  obtain ⟨base,hrun,hfree,hin⟩ := h.passed
  obtain ⟨hholder,hbody⟩ := hin i c _ hp
  refine ⟨timed_concat h.timed hp rfl rfl,⟨base,run_concat_of_none hrun rfl rfl,?_,?_⟩,?_⟩
  · intro hn
    cases hholder.symm.trans hn
  · intro j d code hj
    rcases inside_of_set hp hj with ⟨rfl,hinside⟩ | ⟨hij,hj⟩
    · cases hinside
      refine ⟨hholder,?_⟩
      rw [← hbody,Code.run,hf,Option.bind_some]
    · exact absurd (h.unique hp hj) hij
  · intro j hj
    obtain ⟨hlt,_⟩ := List.getElem?_eq_some_iff.mp hp
    cases hholder.symm.trans hj
    exact ⟨c,rest r.2,List.getElem?_set_self hlt⟩

/-- The body at its end is the next call of the machine that does whole bodies. -/
theorem Sound.unlock {c : ι} {o : ο} (h : Sound body s₀ past s)
    (hp : s.threads[i]? = some (.inside c (.ret o))) : Sound body s₀ (past++[.passed i c o])
      { s with holder := none, threads := s.threads.set i (.leaving o) } := by
  obtain ⟨base,hrun,hfree,hin⟩ := h.passed
  obtain ⟨_,hbody⟩ := hin i c _ hp
  refine ⟨timed_concat h.timed hp rfl (by simp [Phase.stage,Stage.next]),
    ⟨s.shared,?_,fun _ => rfl,?_⟩,fun j hj => (by cases hj)⟩
  · rw [List.filterMap_append,List.filterMap_append]
    have hcall : Machine.run (fun s c => (body c).run s) base [c] = some (s.shared,[o]) := by
      rw [Machine.run_cons hbody.symm]
      rfl
    exact Machine.run_append.mpr ⟨base,_,[o],hrun,hcall,rfl⟩
  · intro j d code hj
    rcases inside_of_set hp hj with ⟨_,hend⟩ | ⟨hij,hj⟩
    · cases hend
    · exact absurd (h.unique hp hj) hij

theorem Sound.step (h : Sound body s₀ past s) (hs : step body s a = some (t,e)) :
    Sound body s₀ (past++[e]) t := by
  cases a with
  | invoke i c =>
    simp only [Monitor.step] at hs
    split at hs
    · next hp =>
      cases hs
      exact h.outside hp rfl rfl rfl rfl fun _ _ => ⟨by simp,by simp⟩
    · cases hs
  | leave i =>
    simp only [Monitor.step] at hs
    split at hs
    · next o hp =>
      cases hs
      exact h.outside hp rfl (by simp [Phase.stage,Stage.next]) rfl rfl fun _ _ => ⟨by simp,by simp⟩
    · cases hs
  | lock i =>
    simp only [Monitor.step] at hs
    split at hs
    · next c hp hholder =>
      cases hs
      exact h.lock hp hholder
    · cases hs
  | exec i =>
    simp only [Monitor.step] at hs
    split at hs
    · next c β f rest hp =>
      obtain ⟨r,hf,he⟩ := Option.map_eq_some_iff.mp hs
      cases he
      exact h.exec hp hf
    · cases hs
  | unlock i =>
    simp only [Monitor.step] at hs
    split at hs
    · next c o hp =>
      cases hs
      exact h.unlock hp
    · cases hs

theorem Sound.run {turns : List (Turn ι)} {events : List (Event ι ο)}
    (hr : Machine.run (Monitor.step body) (start s₀ n) turns = some (s,events)) :
    Sound body s₀ events s := by
  have h := Machine.run_invariant (Sound body s₀) (fun past s a t e h hs => h.step hs)
    (sound_start body s₀ n) hr
  rwa [List.nil_append] at h

/-- Every history of calls under the mutex is linearizable, with the points at the unlocks. -/
theorem linearizable (body : ι → Code σ ο) {turns : List (Turn ι)} {events : List (Event ι ο)}
    (hr : Machine.run (Monitor.step body) (start s₀ n) turns = some (s,events)) :
    Linearizable (fun s c => (body c).run s) s₀ (events.filter Event.visible) := by
  have h := Sound.run hr
  obtain ⟨base,hrun,_⟩ := h.passed
  refine ⟨events,rfl,fun i => ?_,base,hrun⟩
  rw [h.timed i]
  rfl

end Sound

/-- If every body returns from every state in `Inv`, no run of the threads gets stuck: all calls
that are under way can be brought to their ends. -/
theorem completes {body : ι → Code σ ο} (Inv : σ → Prop) {s₀ : σ} {n : ℕ} {turns : List (Turn ι)}
    {events : List (Event ι ο)} {s : Config σ ι ο} (htotal : Total body Inv) (h₀ : Inv s₀)
    (hr : Machine.run (Monitor.step body) (start s₀ n) turns = some (s,events)) :
    ∃ more events' t, Machine.run (Monitor.step body) s more = some (t,events') ∧
      (∀ a ∈ more, a.isInvoke = false) ∧ ∀ p ∈ t.threads, p.isIdle = true := by
  have h := Sound.run hr
  obtain ⟨base,hrun,hfree,hin⟩ := h.passed
  have hbase : Inv base := htotal.run h₀ hrun
  refine Runnable.complete htotal ⟨fun hn => by rw [hfree hn]; exact hbase,?_,fun i c code hp =>
    (hin i c code hp).1⟩
  intro i hi
  obtain ⟨c,code,hp⟩ := h.held i hi
  obtain ⟨t,o,hbody,ht⟩ := htotal base c hbase
  exact ⟨c,code,t,o,hp,(hin i c code hp).2.trans hbody,ht⟩

end Monitor
end CStudy.Foundation
