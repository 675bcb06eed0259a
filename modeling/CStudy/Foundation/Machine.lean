import Mathlib.Data.List.Infix
import Mathlib.Tactic

/-! Deterministic machines driven by calls. A call either takes the machine to a new state and
gives a reply, or is undefined. Properties of runs are stated over the states before and after
every call, and transferred between two machines by forward simulation. -/
namespace CStudy.Foundation

abbrev Machine (σ ι ο : Type*) := σ → ι → Option (σ × ο)

namespace Machine
variable {σ τ ι ο : Type*}

/-- Perform the calls in order, collecting the replies. -/
def run (step : Machine σ ι ο) : σ → List ι → Option (σ × List ο)
  | s,[] => some (s,[])
  | s,c::cs =>
    match step s c with
    | none => none
    | some (t,o) => (run step t cs).map fun r => (r.1,o::r.2)

/-- The replies alone: what the caller observes. -/
def replies (step : Machine σ ι ο) (s : σ) (cs : List ι) : Option (List ο) :=
  (run step s cs).map Prod.snd

variable {step : Machine σ ι ο} {s t u : σ} {c : ι} {cs ds : List ι} {o : ο} {os : List ο}

@[simp] theorem run_nil : run step s [] = some (s,[]) := rfl

theorem run_cons (hc : step s c = some (t,o)) :
    run step s (c::cs) = (run step t cs).map fun r => (r.1,o::r.2) := by simp [run,hc]

/-- A run that starts with a call performs it, then the rest. -/
theorem exists_of_run_cons (h : run step s (c::cs) = some (u,os)) :
    ∃ t o os', step s c = some (t,o) ∧ run step t cs = some (u,os') ∧ os = o::os' := by
  cases hc : step s c with
  | none => simp [run,hc] at h
  | some r =>
    obtain ⟨t,o⟩ := r
    rw [run_cons hc] at h
    obtain ⟨⟨v,os'⟩,hr,he⟩ := Option.map_eq_some_iff.mp h
    cases he
    exact ⟨t,o,os',rfl,hr,rfl⟩

theorem run_cons_eq_some : run step s (c::cs) = some (u,os) ↔
    ∃ t o os', step s c = some (t,o) ∧ run step t cs = some (u,os') ∧ os = o::os' := by
  constructor
  · exact exists_of_run_cons
  · rintro ⟨t,o,os',hc,hr,rfl⟩
    rw [run_cons hc,hr,Option.map_some]

theorem run_append : run step s (cs++ds) = some (u,os) ↔
    ∃ t os₁ os₂, run step s cs = some (t,os₁) ∧ run step t ds = some (u,os₂) ∧ os = os₁++os₂ := by
  induction cs generalizing s os with
  | nil =>
    constructor
    · intro h; exact ⟨s,[],os,rfl,h,rfl⟩
    · rintro ⟨t,os₁,os₂,h₁,h₂,rfl⟩; cases h₁; exact h₂
  | cons c cs ih =>
    rw [List.cons_append,run_cons_eq_some]
    constructor
    · rintro ⟨t,o,os',hc,hr,rfl⟩
      obtain ⟨v,os₁,os₂,h₁,h₂,rfl⟩ := ih.mp hr
      refine ⟨v,o::os₁,os₂,?_,h₂,rfl⟩
      rw [run_cons hc,h₁,Option.map_some]
    · rintro ⟨v,os₁,os₂,h₁,h₂,rfl⟩
      obtain ⟨t,o,os',hc,hr,rfl⟩ := exists_of_run_cons h₁
      exact ⟨t,o,os'++os₂,hc,ih.mpr ⟨v,os',os₂,hr,h₂,rfl⟩,rfl⟩

/-- What holds of the replies so far and the state, and is kept by every call, holds after a run. -/
theorem run_invariant (Inv : List ο → σ → Prop)
    (hstep : ∀ past s c t o, Inv past s → step s c = some (t,o) → Inv (past++[o]) t)
    {past : List ο} (hs : Inv past s) (h : run step s cs = some (t,os)) : Inv (past++os) t := by
  induction cs generalizing s past os with
  | nil =>
    cases h
    rwa [List.append_nil]
  | cons c cs ih =>
    obtain ⟨u,o,os',hc,hr,rfl⟩ := exists_of_run_cons h
    rw [List.append_cons]
    exact ih (hstep past s c u o hs hc) hr

/-- The same for what holds of the calls so far and the state. -/
theorem run_history (Inv : List ι → σ → Prop)
    (hstep : ∀ past s c t o, Inv past s → step s c = some (t,o) → Inv (past++[c]) t)
    {past : List ι} (hs : Inv past s) (h : run step s cs = some (t,os)) : Inv (past++cs) t := by
  induction cs generalizing s past os with
  | nil =>
    cases h
    rwa [List.append_nil]
  | cons c cs ih =>
    obtain ⟨u,o,os',hc,hr,rfl⟩ := exists_of_run_cons h
    rw [List.append_cons]
    exact ih (hstep past s c u o hs hc) hr

/-- What every call keeps holds after a run. -/
theorem run_keeps (Inv : σ → Prop) (hstep : ∀ s c t o, Inv s → step s c = some (t,o) → Inv t)
    (hs : Inv s) (h : run step s cs = some (t,os)) : Inv t :=
  @run_invariant _ _ _ step s t cs os (fun _ t => Inv t)
    (fun _ s c t o hs hc => hstep s c t o hs hc) [] hs h

/-- `Q` holds in every state the run passes through, the first and the last included. -/
def Throughout (step : Machine σ ι ο) (Q : σ → Prop) (s : σ) (cs : List ι) : Prop :=
  ∀ done, done <+: cs → ∀ t os, run step s done = some (t,os) → Q t

/-- `P` holds of every call of the run and the state it is made in. -/
def EachCall (step : Machine σ ι ο) (P : σ → ι → Prop) (s : σ) (cs : List ι) : Prop :=
  ∀ done c, done++[c] <+: cs → ∀ t os, run step s done = some (t,os) → P t c

theorem throughout_cons (Q : σ → Prop) (hc : step s c = some (t,o)) :
    Throughout step Q s (c::cs) ↔ Q s ∧ Throughout step Q t cs := by
  constructor
  · intro h
    refine ⟨h [] List.nil_prefix s [] rfl,fun done hd u os hr => ?_⟩
    refine h (c::done) (List.cons_prefix_cons.mpr ⟨rfl,hd⟩) u (o::os) ?_
    rw [run_cons hc,hr,Option.map_some]
  · rintro ⟨hs,ht⟩ done hd u os hr
    cases done with
    | nil => cases hr; exact hs
    | cons d done =>
      obtain ⟨rfl,hp⟩ := List.cons_prefix_cons.mp hd
      obtain ⟨t',o',os',he,hu,rfl⟩ := exists_of_run_cons hr
      cases hc.symm.trans he
      exact ht done hp u os' hu

theorem eachCall_cons (P : σ → ι → Prop) (hc : step s c = some (t,o)) :
    EachCall step P s (c::cs) ↔ P s c ∧ EachCall step P t cs := by
  constructor
  · intro h
    refine ⟨h [] c (List.cons_prefix_cons.mpr ⟨rfl,List.nil_prefix⟩) s [] rfl,?_⟩
    intro done d hd u os hr
    refine h (c::done) d (List.cons_prefix_cons.mpr ⟨rfl,hd⟩) u (o::os) ?_
    rw [run_cons hc,hr,Option.map_some]
  · rintro ⟨hs,ht⟩ done d hd u os hr
    cases done with
    | nil =>
      obtain ⟨rfl,_⟩ := List.cons_prefix_cons.mp hd
      cases hr
      exact hs
    | cons e done =>
      obtain ⟨rfl,hp⟩ := List.cons_prefix_cons.mp hd
      obtain ⟨t',o',os',he,hu,rfl⟩ := exists_of_run_cons hr
      cases hc.symm.trans he
      exact ht done d hp u os' hu

/-- A test of every call of a run. -/
def testCalls (step : Machine σ ι ο) (p : σ → ι → Bool) : σ → List ι → Bool
  | _,[] => true
  | s,c::cs => p s c &&
    match step s c with
    | none => true
    | some (t,_) => testCalls step p t cs

theorem eachCall_of_test {P : σ → ι → Prop} {p : σ → ι → Bool} (hp : ∀ s c, p s c = true → P s c)
    (h : testCalls step p s cs = true) : EachCall step P s cs := by
  induction cs generalizing s with
  | nil =>
    intro done c hd
    simp at hd
  | cons c cs ih =>
    rw [testCalls,Bool.and_eq_true] at h
    cases hc : step s c with
    | none =>
      intro done d hd t os hr
      cases done with
      | nil =>
        obtain ⟨rfl,_⟩ := List.cons_prefix_cons.mp hd
        cases hr
        exact hp s d h.1
      | cons e done =>
        obtain ⟨rfl,_⟩ := List.cons_prefix_cons.mp hd
        obtain ⟨u,o,_,he,_⟩ := exists_of_run_cons hr
        cases hc.symm.trans he
    | some r =>
      obtain ⟨t,o⟩ := r
      rw [hc] at h
      exact (eachCall_cons P hc).mpr ⟨hp s c h.1,ih h.2⟩

/-- When a call preserves `Q` exactly if it satisfies `P`, then `Q` holds throughout a run
exactly if `P` holds of each of its calls. The invariant may depend on the number of calls
made so far, of which there are at most `N`. -/
theorem throughout_iff_eachCall {Q : σ → Prop} {P : σ → ι → Prop} (Inv : ℕ → σ → Prop) (N : ℕ)
    (hstep : ∀ m s c, m < N → Inv m s → Q s →
      ∃ t o, step s c = some (t,o) ∧ Inv (m+1) t ∧ (Q t ↔ P s c))
    {m : ℕ} (hm : m+cs.length ≤ N) (hi : Inv m s) (hq : Q s) :
    Throughout step Q s cs ↔ EachCall step P s cs := by
  induction cs generalizing s m with
  | nil =>
    constructor
    · intro _ done c hd
      simp at hd
    · intro _ done hd t os hr
      cases List.prefix_nil.mp hd
      cases hr
      exact hq
  | cons c cs ih =>
    rw [List.length_cons] at hm
    obtain ⟨t,o,hc,hi',hiff⟩ := hstep m s c (by omega) hi hq
    rw [throughout_cons Q hc,eachCall_cons P hc]
    constructor
    · rintro ⟨_,ht⟩
      have hq' : Q t := ht [] List.nil_prefix t [] rfl
      exact ⟨hiff.mp hq',(ih (by omega) hi' hq').mp ht⟩
    · rintro ⟨hp,ht⟩
      exact ⟨hq,(ih (by omega) hi' (hiff.mpr hp)).mpr ht⟩

/-- An invariant that all calls with `P` keep holds in every state of a run of such calls. -/
theorem throughout_of_eachCall {Q : σ → Prop} {P : σ → ι → Prop} (Inv : σ → Prop)
    (hQ : ∀ s, Inv s → Q s)
    (hkeep : ∀ s c t o, Inv s → P s c → step s c = some (t,o) → Inv t) (hs : Inv s)
    (hP : EachCall step P s cs) : Throughout step Q s cs := by
  induction cs generalizing s with
  | nil =>
    intro done hd t os hr
    cases List.prefix_nil.mp hd
    cases hr
    exact hQ s hs
  | cons c cs ih =>
    intro done hd t os hr
    cases done with
    | nil => cases hr; exact hQ s hs
    | cons d done =>
      obtain ⟨rfl,hp⟩ := List.cons_prefix_cons.mp hd
      obtain ⟨u,o,os',hc,hu,rfl⟩ := exists_of_run_cons hr
      obtain ⟨hPc,hPs⟩ := (eachCall_cons P hc).mp hP
      exact ih (hkeep s d u o hs hPc hc) hPs done hp t os' hu

/-- When moreover every call without `P` ends `Q`, the two are equivalent on every run. -/
theorem throughout_iff_eachCall_of_run {Q : σ → Prop} {P : σ → ι → Prop} (Inv : σ → Prop)
    (hQ : ∀ s, Inv s → Q s)
    (hkeep : ∀ s c t o, Inv s → P s c → step s c = some (t,o) → Inv t)
    (hbreak : ∀ s c t o, Inv s → ¬ P s c → step s c = some (t,o) → ¬ Q t) (hs : Inv s)
    (hr : run step s cs = some (u,os)) : Throughout step Q s cs ↔ EachCall step P s cs := by
  refine ⟨?_,throughout_of_eachCall Inv hQ hkeep hs⟩
  induction cs generalizing s os with
  | nil =>
    intro _ done c hd
    simp at hd
  | cons c cs ih =>
    intro h
    obtain ⟨t,o,os',hc,hr',rfl⟩ := exists_of_run_cons hr
    rw [throughout_cons Q hc] at h
    rw [eachCall_cons P hc]
    have hPc : P s c := by
      by_contra hn
      exact hbreak s c t o hs hn hc (h.2 [] List.nil_prefix t [] rfl)
    exact ⟨hPc,ih (hkeep s c t o hs hPc hc) hr' h.2⟩

/-- Calls with `P` keep what is good, and from the first call without it on the state is bad. -/
theorem run_good_or_bad (P : ι → Prop) (Good Bad : σ → Prop)
    (hkeep : ∀ s c t o, Good s → P c → step s c = some (t,o) → Good t)
    (hspoil : ∀ s c t o, Good s → ¬ P c → step s c = some (t,o) → Bad t)
    (hbad : ∀ s c t o, Bad s → step s c = some (t,o) → Bad t) (hs : Good s)
    (hr : run step s cs = some (u,os)) :
    ((∀ c ∈ cs, P c) ∧ Good u) ∨ ((¬ ∀ c ∈ cs, P c) ∧ Bad u) := by
  induction cs generalizing s os with
  | nil =>
    cases hr
    exact .inl ⟨by simp,hs⟩
  | cons c cs ih =>
    obtain ⟨t,o,os',hc,hr',rfl⟩ := exists_of_run_cons hr
    rw [List.forall_mem_cons]
    by_cases hP : P c
    · rw [and_iff_right hP]
      exact ih (hkeep s c t o hs hP hc) hr'
    · refine .inr ⟨fun h => hP h.1,?_⟩
      have hall : Throughout step Bad t cs :=
        throughout_of_eachCall Bad (fun _ h => h) (fun s c t o h (_ : True) => hbad s c t o h)
          (hspoil s c t o hs hP hc) fun _ _ _ _ _ _ => trivial
      exact hall cs List.prefix_rfl u os' hr'

/-- Run a machine on which every call is defined. -/
def drive (f : τ → ι → τ × ο) : τ → List ι → τ × List ο
  | a,[] => (a,[])
  | a,c::cs => ((drive f (f a c).1 cs).1,(f a c).2::(drive f (f a c).1 cs).2)

variable {f : τ → ι → τ × ο} {a : τ}

@[simp] theorem drive_nil : drive f a [] = (a,[]) := rfl
@[simp] theorem drive_cons : drive f a (c::cs) =
    ((drive f (f a c).1 cs).1,(f a c).2::(drive f (f a c).1 cs).2) := rfl

theorem drive_append : drive f a (cs++ds) =
    ((drive f (drive f a cs).1 ds).1,(drive f a cs).2++(drive f (drive f a cs).1 ds).2) := by
  induction cs generalizing a with
  | nil => rfl
  | cons c cs ih => simp [ih]

@[simp] theorem length_drive : (drive f a cs).2.length = cs.length := by
  induction cs generalizing a with
  | nil => rfl
  | cons c cs ih => simp [ih]

/-- Forward simulation: a machine that matches each call of a total one matches its runs. -/
theorem run_simulates (R : σ → τ → Prop)
    (hstep : ∀ s a c, R s a → ∃ t, step s c = some (t,(f a c).2) ∧ R t (f a c).1)
    (h : R s a) (cs : List ι) :
    ∃ t, run step s cs = some (t,(drive f a cs).2) ∧ R t (drive f a cs).1 := by
  induction cs generalizing s a with
  | nil => exact ⟨s,rfl,h⟩
  | cons c cs ih =>
    obtain ⟨t,hc,ht⟩ := hstep s a c h
    obtain ⟨u,hu,hr⟩ := ih ht
    refine ⟨u,?_,hr⟩
    rw [run_cons hc,hu]
    rfl

section Apart
variable {κ ε : Type*} {start : σ} {own : κ → ε → Option ι} {past : List ε} {f g : κ → σ} {e : ε}
  {k : κ}

/-- Each of several machines is where it gets alone with the calls of the history that are its own. -/
def Apart (step : Machine σ ι ο) (start : σ) (own : κ → ε → Option ι) (past : List ε)
    (f : κ → σ) : Prop :=
  ∀ k, ∃ os, run step start (past.filterMap (own k)) = some (f k,os)

theorem Apart.idle (h : Apart step start own past f) (hown : ∀ k, own k e = none)
    (hsame : ∀ k, g k = f k) : Apart step start own (past++[e]) g := by
  intro k
  obtain ⟨os,hrun⟩ := h k
  refine ⟨os,?_⟩
  rw [List.filterMap_append,List.filterMap_cons_none (hown k),List.filterMap_nil,List.append_nil,
    hsame k,hrun]

theorem Apart.call (h : Apart step start own past f) (hk : own k e = some c)
    (hother : ∀ j, j ≠ k → own j e = none ∧ g j = f j) (hc : step (f k) c = some (g k,o)) :
    Apart step start own (past++[e]) g := by
  intro j
  obtain ⟨os,hrun⟩ := h j
  rw [List.filterMap_append]
  by_cases hj : j = k
  · subst hj
    refine ⟨os++[o],run_append.mpr ⟨_,_,_,hrun,?_,rfl⟩⟩
    simp [hk,run,hc]
  · refine ⟨os,?_⟩
    rw [List.filterMap_cons_none (hother j hj).1,List.filterMap_nil,List.append_nil,
      (hother j hj).2,hrun]

end Apart

end Machine
end CStudy.Foundation
