import CStudy.DirWalk.Returns

/-! The walk when `realloc` moves the buffer. A call that has its buffer moved goes on in the new one,
but its caller does not get to know it, and what it does next with the path is undefined. So that the
buffer may be moved goes unnoticed only where `dir_walk` never enlarges it. -/
namespace CStudy.DirWalk
open CStudy.Foundation

/-- The size `main` gives to the buffer. -/
def startSize (root : Str) : ℕ := if root.length ≥ pathMax+1 then root.length*2 else pathMax+1

/-- `main` with a callback of any kind: what the callback has made of its argument, and the name of
the directory that is printed. -/
def traverse {σ : Type} (system : System) (fn : Str → Mode → σ → Option σ) (depth : ℕ) (root : Str)
    (arg : σ) : Option (Option (σ × Str)) := do
  let (path?,bufLen,s) ← prepare system root arg
  match path? with
  | none => return none
  | some path =>
    let (_,s) ← dirWalk system fn depth path bufLen s
    let dir ← s.string path
    return some (s.arg,dir)

theorem main_eq_traverse (system : System) (depth : ℕ) (root : Str) : main system depth root =
    (traverse system fileCallback depth root FileStatistic.zero).map fun r =>
      match r with
      | none => (1,none)
      | some (fs,dir) => (0,some (printStatistic dir fs)) := by
  rw [main,traverse]
  cases prepare system root FileStatistic.zero with
  | none => rfl
  | some r =>
    obtain ⟨path?,bufLen,s⟩ := r
    cases path? with
    | none => rfl
    | some path =>
      simp only [Option.bind_eq_bind,Option.bind_some]
      cases dirWalk system fileCallback depth path bufLen s with
      | none => rfl
      | some r =>
        simp only [Option.bind_some]
        cases r.2.string path <;> rfl

/-- Blocks that are not in use stay so, except for the one at `q`. -/
structure Keeps {σ : Type} (q : ℕ) (s t : State σ) : Prop where
  top : s.top ≤ t.top
  gone : ∀ p, p ≠ q → p < s.top → s.blocks p = none → t.blocks p = none

section Frame
variable {σ : Type} {system : System} {fn : Str → Mode → σ → Option σ} {p q size pathEnd : ℕ}
  {s t u : State σ}

theorem Keeps.refl (q : ℕ) (s : State σ) : Keeps q s s := ⟨le_rfl,fun _ _ _ h => h⟩

/-- The buffer may have been moved behind all blocks between the two. -/
theorem Keeps.trans {q' : ℕ} (h : Keeps q s t) (h' : Keeps q' t u) (hq : q' = q ∨ s.top ≤ q') :
    Keeps q s u := by
  refine ⟨h.top.trans h'.top,?_⟩
  intro p hp hlt hnone
  refine h'.gone p ?_ (hlt.trans_le h.top) (h.gone p hp hlt hnone)
  rcases hq with rfl | hle
  · exact hp
  · omega

theorem keeps_modify {f : List UInt8 → Option (List UInt8)} (h : s.modify q f = some t) :
    Keeps q s t := by
  refine ⟨(State.top_modify h).ge,?_⟩
  obtain ⟨memory,_,rfl⟩ := Option.map_eq_some_iff.mp h
  intro p hp _ hnone
  exact (Function.update_of_ne hp _ _).trans hnone

theorem walkEntries_keeps {walk : ℕ → ℕ → State σ → Option (ℤ × State σ)} {names : List Str} {ret : ℤ}
    (hwalk : ∀ s ret t, walk q size s = some (ret,t) → Keeps q s t)
    (h : walkEntries walk q size pathEnd names s = some (ret,t)) : Keeps q s t := by
  induction names generalizing s with
  | nil =>
    cases h
    exact Keeps.refl q _
  | cons name names ih =>
    rw [walkEntries] at h
    split_ifs at h with hdots
    · exact ih h
    · obtain ⟨s₁,hcopy,h⟩ := Option.bind_eq_some_iff.mp h
      obtain ⟨⟨ret₁,s₂⟩,hcall,h⟩ := Option.bind_eq_some_iff.mp h
      have hkeeps : Keeps q s s₂ := (keeps_modify hcopy).trans (hwalk _ _ _ hcall) (.inl rfl)
      dsimp only at h
      split_ifs at h with hret
      · cases h
        exact hkeeps
      · exact hkeeps.trans (ih h) (.inl rfl)

theorem realloc_keeps {path? : Option ℕ} (h : realloc system s p size = some (path?,t)) :
    Keeps p s t ∧ (path?.getD p = p ∨ s.top ≤ path?.getD p) := by
  obtain ⟨memory,_,h⟩ := Option.map_eq_some_iff.mp h
  cases hrealloc : system.realloc s.allocations with
  | inPlace =>
    rw [hrealloc] at h
    cases h
    exact ⟨⟨le_rfl,fun p' hp _ hnone => (Function.update_of_ne hp _ _).trans hnone⟩,.inl rfl⟩
  | moved =>
    rw [hrealloc] at h
    cases h
    refine ⟨⟨Nat.le_succ _,?_⟩,.inr le_rfl⟩
    intro p' hp hlt hnone
    have hne : p' ≠ s.top := by omega
    exact (Function.update_of_ne hne _ _).trans ((Function.update_of_ne hp _ _).trans hnone)
  | failed =>
    rw [hrealloc] at h
    cases h
    exact ⟨⟨le_rfl,fun _ _ _ hnone => hnone⟩,.inl rfl⟩

theorem enlarge_keeps {path? : Option ℕ} {pathLen size' : ℕ}
    (h : enlarge system p size pathLen s = some (path?,size',t)) :
    Keeps p s t ∧ (path?.getD p = p ∨ s.top ≤ path?.getD p) := by
  rw [enlarge] at h
  split_ifs at h with hlong
  · obtain ⟨⟨q?,u⟩,hrealloc,heq⟩ := Option.map_eq_some_iff.mp h
    cases heq
    exact realloc_keeps hrealloc
  · cases h
    exact ⟨Keeps.refl p _,.inl rfl⟩

/-- Behind the enlarging only the buffer that there is then is written. -/
theorem walkDirectory_keeps {walk : ℕ → ℕ → State σ → Option (ℤ × State σ)} {pathLen : ℕ} {ret : ℤ}
    (hwalk : ∀ q size s ret t, walk q size s = some (ret,t) → Keeps q s t)
    (h : walkDirectory system walk p size pathLen s = some (ret,t)) :
    ∃ path? size' s₁, enlarge system p size pathLen s = some (path?,size',s₁) ∧
      Keeps (path?.getD p) s₁ t := by
  obtain ⟨⟨path?,size',s₁⟩,henlarge,h⟩ := Option.bind_eq_some_iff.mp h
  refine ⟨path?,size',s₁,henlarge,?_⟩
  cases path? with
  | none =>
    cases h
    exact ⟨le_rfl,fun _ _ _ hnone => hnone⟩
  | some q =>
    obtain ⟨s₂,hslash,h⟩ := Option.bind_eq_some_iff.mp h
    obtain ⟨s₃,hnul,h⟩ := Option.bind_eq_some_iff.mp h
    obtain ⟨name,_,h⟩ := Option.bind_eq_some_iff.mp h
    have hopened : Keeps q s₁ s₃ := (keeps_modify hslash).trans (keeps_modify hnul) (.inl rfl)
    cases hopen : system.opendir name with
    | none =>
      rw [hopen] at h
      cases h
      exact ⟨hopened.top,hopened.gone⟩
    | some names =>
      rw [hopen] at h
      obtain ⟨⟨ret',s₄⟩,hentries,h⟩ := Option.bind_eq_some_iff.mp h
      obtain ⟨s₅,hcut,h⟩ := Option.bind_eq_some_iff.mp h
      cases h
      have hwalked : Keeps q s₃ s₄ := walkEntries_keeps (hwalk q size') hentries
      exact (hopened.trans hwalked (.inl rfl)).trans (keeps_modify hcut) (.inl rfl)

/-- Whatever a walk does, what was not in use before is not in use after it. -/
theorem dirWalk_keeps {depth : ℕ} {ret : ℤ} (h : dirWalk system fn depth p size s = some (ret,t)) :
    Keeps p s t := by
  induction depth generalizing p size s ret t with
  | zero => cases h
  | succ depth ih =>
    obtain ⟨name,_,h⟩ := Option.bind_eq_some_iff.mp h
    cases hstat : system.lstat name with
    | none =>
      rw [hstat] at h
      cases h
      exact ⟨le_rfl,fun _ _ _ hnone => hnone⟩
    | some mode =>
      rw [hstat] at h
      obtain ⟨arg,_,h⟩ := Option.bind_eq_some_iff.mp h
      dsimp only at h
      split_ifs at h with hmode
      · cases h
        exact ⟨le_rfl,fun _ _ _ hnone => hnone⟩
      · obtain ⟨path?,size',s₁,henlarge,hkeeps⟩ := walkDirectory_keeps (fun _ _ _ _ _ h => ih h) h
        obtain ⟨hfirst,hmoved⟩ := enlarge_keeps henlarge
        have hs : Keeps p s s₁ := ⟨hfirst.top,hfirst.gone⟩
        exact hs.trans hkeeps hmoved

end Frame

section Gone
variable {σ : Type} {system : System} {fn : Str → Mode → σ → Option σ} {p q size pathEnd : ℕ}
  {s t : State σ}

theorem modify_of_gone {f : List UInt8 → Option (List UInt8)} (h : s.blocks p = none) :
    s.modify p f = none := by
  rw [State.modify,h]
  rfl

/-- A loop that goes on without its buffer does not come to another entry. -/
theorem walkEntries_of_gone {walk : ℕ → ℕ → State σ → Option (ℤ × State σ)} {names : List Str}
    {ret : ℤ} (hgone : s.blocks p = none)
    (h : walkEntries walk p size pathEnd names s = some (ret,t)) : t.blocks p = none := by
  induction names with
  | nil =>
    cases h
    exact hgone
  | cons name names ih =>
    rw [walkEntries] at h
    split_ifs at h with hdots
    · exact ih h
    · obtain ⟨s₁,hcopy,_⟩ := Option.bind_eq_some_iff.mp h
      rw [State.strcpy,modify_of_gone hgone] at hcopy
      cases hcopy

/-- A call that has its buffer moved has freed the one of its caller. -/
theorem walkDirectory_gone {walk : ℕ → ℕ → State σ → Option (ℤ × State σ)} {path : Str} {ret : ℤ}
    {arg : σ} (hmoved : ∀ n, system.realloc n = .moved)
    (hwalk : ∀ q size s ret t, walk q size s = some (ret,t) → Keeps q s t)
    (hs : Holds s p (path++[0]) size arg) (hp : p < s.top) (hlong : size/2 < path.length)
    (h : walkDirectory system walk p size path.length s = some (ret,t)) : t.blocks p = none := by
  obtain ⟨path?,size',s₁,henlarge,hkeeps⟩ := walkDirectory_keeps hwalk h
  obtain ⟨back,hblock,_⟩ := hs.block
  rw [enlarge,if_pos hlong] at henlarge
  simp only [realloc,hblock,hmoved,Option.map_some] at henlarge
  cases henlarge
  have hne : p ≠ s.top := by omega
  refine hkeeps.gone p hne (Nat.lt_succ_of_lt hp) ?_
  exact (Function.update_of_ne hne _ _).trans (Function.update_self ..)

theorem calls_isSome (hfn : ∀ path mode arg, ∃ arg', fn path mode arg = some arg')
    (visits : List (Str × Mode)) (arg : σ) : ∃ arg', calls fn visits arg = some arg' := by
  induction visits generalizing arg with
  | nil => exact ⟨arg,rfl⟩
  | cons visit visits ih =>
    obtain ⟨arg₁,hcall⟩ := hfn visit.1 visit.2 arg
    obtain ⟨arg₂,hcalls⟩ := ih arg₁
    refine ⟨arg₂,?_⟩
    rw [calls_cons,hcall,Option.bind_some,hcalls]

mutual
/-- A tree with a directory whose path is too long: when a walk of it returns, the buffer of the caller
is not in use. -/
theorem Node.dirWalk_gone (hmoved : ∀ n, system.realloc n = .moved)
    (hfn : ∀ path mode arg, ∃ arg', fn path mode arg = some arg') (node : Node) {path : Str}
    {depth size : ℕ} {s t : State σ} {ret : ℤ} {arg : σ} (hat : node.At system path) (hpath : 0 ∉ path)
    (hdepth : node.depth ≤ depth) (hsize : 514 ≤ size) (hfits : path.length < size)
    (h : Holds s p (path++[0]) size arg) (hp : p < s.top)
    (hlong : ¬ Short (size/2) (node.visits path))
    (hwalk : dirWalk system fn depth p size s = some (ret,t)) : t.blocks p = none := by
  obtain ⟨depth,rfl⟩ := Node.exists_depth_eq hdepth
  cases node with
  | leaf mode hleaf =>
    refine absurd ?_ hlong
    rw [Node.visits]
    intro visit hvisit hdir
    rw [List.mem_singleton.mp hvisit,hleaf] at hdir
    cases hdir
  | dir mode hmode entries =>
    rw [Node.visits,short_cons,not_and_or] at hlong
    rw [Node.depth] at hdepth
    rw [Node.At] at hat
    obtain ⟨hstat,⟨names,hopen,hnames⟩,hentries⟩ := hat
    obtain ⟨arg₁,hcall⟩ := hfn path mode arg
    rw [dirWalk_succ hpath h,hstat] at hwalk
    dsimp only at hwalk
    rw [hcall,Option.bind_some,hmode,if_pos rfl] at hwalk
    by_cases hle : path.length ≤ size/2
    · -- an entry frees the buffer, so that the path cannot be cut behind the loop
      have hrest := hlong.resolve_left (not_not.mpr fun _ => hle)
      have henlarge : enlarge system p size path.length { s with arg := arg₁ } =
          some (some p,size,{ s with arg := arg₁ }) := if_neg (by omega)
      obtain ⟨u,hu,htop,heq⟩ := walkDirectory_eq hpath (dirWalk system fn depth) henlarge (by omega)
        (h.call arg₁)
      rw [heq,hopen] at hwalk
      obtain ⟨⟨ret',v⟩,hloop,hcut⟩ := Option.bind_eq_some_iff.mp hwalk
      obtain ⟨w,hcut,_⟩ := Option.bind_eq_some_iff.mp hcut
      have hlen : path.length+1 = (path++[slash]).length := by simp
      have hdir : 0 ∉ path++[slash] := by simpa [slash] using hpath
      rw [walkEntries_filter,hnames,hlen] at hloop
      have hgone : v.blocks p = none := Entries.walkEntries_gone hmoved hfn entries hentries hdir
        (by omega) (by omega) (by omega) hu.shorten (hp.trans_eq htop.symm) hrest hloop
      rw [State.write,modify_of_gone hgone] at hcut
      cases hcut
    · exact walkDirectory_gone hmoved (fun _ _ _ _ _ h => dirWalk_keeps h) (h.call arg₁) hp
        (not_le.mp hle) hwalk

theorem Entries.walkEntries_gone (hmoved : ∀ n, system.realloc n = .moved)
    (hfn : ∀ path mode arg, ∃ arg', fn path mode arg = some arg') (entries : Entries) {dir : Str}
    {depth size : ℕ} {s t : State σ} {ret : ℤ} {arg : σ} (hat : entries.At system dir) (hdir : 0 ∉ dir)
    (hdepth : entries.depth ≤ depth) (hsize : 514 ≤ size) (hfits : dir.length+256 ≤ size)
    (h : Holds s p dir size arg) (hp : p < s.top) (hlong : ¬ Short (size/2) (entries.visits dir))
    (hwalk : walkEntries (dirWalk system fn depth) p size dir.length entries.names s = some (ret,t)) :
    t.blocks p = none := by
  cases entries with
  | nil =>
    refine absurd ?_ hlong
    rintro visit ⟨⟩
  | cons name node rest =>
    rw [Entries.visits,short_append,not_and_or] at hlong
    rw [Entries.depth,Nat.max_le] at hdepth
    rw [Entries.At] at hat
    have hname := name.short
    have hpath : 0 ∉ dir++name.bytes := by simp [hdir,name.noNul]
    have hlen : (dir++name.bytes).length = dir.length+name.bytes.length := List.length_append
    have hroom : dir.length+name.bytes.length < size := by omega
    obtain ⟨s₁,hcopy,h₁⟩ := h.strcpy hroom
    have htop : p < s₁.top := hp.trans_eq (State.top_modify hcopy).symm
    rw [Entries.names,walkEntries,if_neg (not_or.mpr ⟨name.notDot,name.notDotDot⟩)] at hwalk
    simp only [hcopy,Option.bind_eq_bind,Option.bind_some] at hwalk
    by_cases hshort : Short (size/2) (node.visits (dir++name.bytes))
    · have hfollows : Follows p (dir++name.bytes++trail system (dir++name.bytes)) size
          (dirWalk system fn depth p size s₁) (node.outcome system fn (dir++name.bytes) arg) :=
        node.dirWalk_follows (.inr hshort) (node.shown_of_at hat.1) hpath hdepth.1 hsize (by omega) h₁
      obtain ⟨arg₂,hcalls⟩ := calls_isSome hfn (node.visits (dir++name.bytes)) arg
      rw [node.outcome_of_at hat.1,hcalls,List.append_assoc] at hfollows
      obtain ⟨s₂,hcall,h₂⟩ := hfollows
      rw [hcall] at hwalk
      exact Entries.walkEntries_gone hmoved hfn rest hat.2 hdir hdepth.2 hsize hfits h₂.shorten
        (htop.trans_le (dirWalk_keeps hcall).top) (hlong.resolve_left (not_not.mpr hshort)) hwalk
    · obtain ⟨⟨ret₁,s₂⟩,hcall,hwalk⟩ := Option.bind_eq_some_iff.mp hwalk
      have hgone : s₂.blocks p = none := Node.dirWalk_gone hmoved hfn node hat.1 hpath hdepth.1 hsize
        (by omega) h₁ htop hshort hcall
      dsimp only at hwalk
      split_ifs at hwalk with hret
      · cases hwalk
        exact hgone
      · exact walkEntries_of_gone hgone hwalk
end

end Gone

section Main
variable {σ : Type} {system : System} {fn : Str → Mode → σ → Option σ} {p size size' depth : ℕ}
  {front : List UInt8} {s : State σ} {arg : σ} {root : Str} {tree : Node}

theorem Holds.realloc_of_ne_failed (hne : ∀ n, system.realloc n ≠ .failed)
    (h : Holds s p front size arg) (hp : p < s.top) (hfront : front.length ≤ size') :
    ∃ q s', DirWalk.realloc system s p size' = some (some q,s') ∧ q < s'.top ∧
      Holds s' q front size' arg := by
  obtain ⟨⟨back,hblock,_⟩,harg⟩ := h
  obtain ⟨back',hresize,hsize⟩ := resize_append (system.stale s.allocations) back hfront
  cases hrealloc : system.realloc s.allocations with
  | inPlace =>
    simp only [DirWalk.realloc,hblock,hrealloc,hresize,Option.map_some]
    exact ⟨p,_,rfl,hp,⟨back',Function.update_self ..,hsize⟩,harg⟩
  | moved =>
    simp only [DirWalk.realloc,hblock,hrealloc,hresize,Option.map_some]
    exact ⟨s.top,_,rfl,Nat.lt_succ_self _,⟨back',Function.update_self ..,hsize⟩,harg⟩
  | failed => exact absurd hrealloc (hne _)

theorem pathMax_lt_startSize (root : Str) : pathMax < startSize root := by
  rw [startSize]
  split_ifs <;> omega

theorem length_lt_startSize (root : Str) : root.length < startSize root := by
  rw [startSize]
  split_ifs <;> omega

/-- `main` goes on with the buffer that `realloc` has returned to it. -/
theorem prepare_of_ne_failed (hne : ∀ n, system.realloc n ≠ .failed) (root : Str) (arg : σ) :
    ∃ p s, prepare system root arg = some (some p,startSize root,s) ∧ p < s.top ∧
      Holds s p (root++[0]) (startSize root) arg := by
  have hs := holds_malloc (system.stale 0) (pathMax+1) arg
  have hroom : ([] : Str).length+root.length < startSize root := by
    have hlt := length_lt_startSize root
    rw [List.length_nil]
    omega
  rw [prepare]
  split_ifs with hlong
  · have hsize : startSize root = root.length*2 := if_pos hlong
    rw [hsize] at hroom ⊢
    obtain ⟨q,s',hrealloc,hq,h'⟩ := hs.realloc_of_ne_failed hne Nat.zero_lt_one
      (Nat.zero_le (root.length*2))
    obtain ⟨s'',hcopy,h''⟩ := h'.strcpy hroom
    refine ⟨q,s'',?_,hq.trans_eq (State.top_modify hcopy).symm,h''⟩
    rw [hrealloc,Option.bind_some]
    exact Option.map_eq_some_iff.mpr ⟨s'',hcopy,rfl⟩
  · have hsize : startSize root = pathMax+1 := if_neg hlong
    rw [hsize] at hroom ⊢
    obtain ⟨s',hcopy,h'⟩ := hs.strcpy hroom
    refine ⟨0,s',?_,Nat.zero_lt_one.trans_eq (State.top_modify hcopy).symm,h'⟩
    exact Option.map_eq_some_iff.mpr ⟨s',hcopy,rfl⟩

/-- A run in which the buffer stays where it is, once `main` has got it. -/
theorem traverse_eq (hne : ∀ n, system.realloc n ≠ .failed)
    (hgrow : (∀ n, system.realloc n = .inPlace) ∨ Short (startSize root/2) (tree.visits root))
    (hroot : 0 ∉ root) (hat : tree.At system root) (hdepth : tree.depth ≤ depth) (arg : σ) :
    traverse system fn depth root arg =
      (calls fn (tree.visits root) arg).map fun arg => some (arg,root) := by
  obtain ⟨p,s,hprepare,_,h⟩ := prepare_of_ne_failed hne root arg
  have hlarge := pathMax_lt_startSize root
  rw [pathMax] at hlarge
  have hfollows : Follows p (root++trail system root) (startSize root)
      (dirWalk system fn depth p (startSize root) s) (tree.outcome system fn root arg) :=
    tree.dirWalk_follows hgrow (tree.shown_of_at hat) hroot hdepth (by omega)
      (length_lt_startSize root) h
  rw [tree.outcome_of_at hat,tree.trail_of_at hat] at hfollows
  simp only [traverse,hprepare,Option.bind_eq_bind,Option.bind_some]
  cases hcalls : calls fn (tree.visits root) arg with
  | none =>
    rw [hcalls] at hfollows
    have hnone : dirWalk system fn depth p (startSize root) s = none := hfollows
    rw [hnone]
    rfl
  | some arg' =>
    rw [hcalls] at hfollows
    obtain ⟨s',hwalk,h'⟩ := hfollows
    rw [hwalk,Option.bind_some,h'.string hroot,Option.bind_some,h'.arg]
    rfl

/-- A run in which the buffer is moved whenever it is enlarged is undefined, if a directory has too
long a path. -/
theorem traverse_moved (hmoved : ∀ n, system.realloc n = .moved)
    (hfn : ∀ path mode arg, ∃ arg', fn path mode arg = some arg')
    (hlong : ¬ Short (startSize root/2) (tree.visits root)) (hroot : 0 ∉ root)
    (hat : tree.At system root) (hdepth : tree.depth ≤ depth) (arg : σ) :
    traverse system fn depth root arg = none := by
  have hne : ∀ n, system.realloc n ≠ .failed := by
    intro n
    rw [hmoved n]
    decide
  obtain ⟨p,s,hprepare,hp,h⟩ := prepare_of_ne_failed hne root arg
  have hlarge := pathMax_lt_startSize root
  rw [pathMax] at hlarge
  simp only [traverse,hprepare,Option.bind_eq_bind,Option.bind_some]
  cases hwalk : dirWalk system fn depth p (startSize root) s with
  | none => rfl
  | some r =>
    have hgone : r.2.blocks p = none := tree.dirWalk_gone hmoved hfn hat hroot hdepth (by omega)
      (length_lt_startSize root) h hp hlong hwalk
    rw [Option.bind_some,State.string,hgone]
    rfl

end Main

mutual
theorem Node.at_congr {system system' : System} (hlstat : system.lstat = system'.lstat)
    (hopendir : system.opendir = system'.opendir) (node : Node) {path : Str}
    (h : node.At system path) : node.At system' path := by
  cases node with
  | leaf mode _ =>
    rw [Node.At] at h ⊢
    rwa [← hlstat]
  | dir mode _ entries =>
    rw [Node.At] at h ⊢
    rw [← hlstat,← hopendir]
    exact ⟨h.1,h.2.1,Entries.at_congr hlstat hopendir entries h.2.2⟩

theorem Entries.at_congr {system system' : System} (hlstat : system.lstat = system'.lstat)
    (hopendir : system.opendir = system'.opendir) (entries : Entries) {dir : Str}
    (h : entries.At system dir) : entries.At system' dir := by
  cases entries with
  | nil => trivial
  | cons name node rest =>
    rw [Entries.At] at h ⊢
    exact ⟨Node.at_congr hlstat hopendir node h.1,Entries.at_congr hlstat hopendir rest h.2⟩
end

/-- The two systems cannot be told apart: whatever the callback is, it is called alike, and the program
prints the same. -/
def Alike (depth : ℕ) (root : Str) (system system' : System) : Prop :=
  (∀ (σ : Type) (fn : Str → Mode → σ → Option σ) (arg : σ),
    traverse system fn depth root arg = traverse system' fn depth root arg) ∧
    main system depth root = main system' depth root

/-- For every tree in the file system: all runs, with whatever reallocations that move the buffer, are
like the one in which it is always extended in place, exactly if no directory has a path longer than
half of the buffer that `main` has made. -/
theorem moving_invisible_iff (system : System) (root : Str) (tree : Node) (depth : ℕ)
    (hroot : 0 ∉ root) (hat : tree.At system root) (hdepth : tree.depth ≤ depth) :
    (∀ realloc : ℕ → Realloc, (∀ n, realloc n ≠ .failed) → Alike depth root
        { system with realloc := realloc } { system with realloc := fun _ => .inPlace }) ↔
      ∀ visit ∈ tree.visits root, sIsDir visit.2 = true → visit.1.length ≤ startSize root/2 := by
  have hat' : ∀ realloc : ℕ → Realloc, tree.At { system with realloc := realloc } root := by
    intro realloc
    have hlstat : system.lstat = ({ system with realloc := realloc } : System).lstat := rfl
    have hopendir : system.opendir = ({ system with realloc := realloc } : System).opendir := rfl
    exact tree.at_congr hlstat hopendir hat
  constructor
  · intro hall
    by_contra hlong
    have hmoved := (hall (fun _ => .moved) fun _ => by decide).1 Unit (fun _ _ arg => some arg) ()
    rw [traverse_moved (fun _ => rfl) (fun _ _ arg => ⟨arg,rfl⟩) hlong hroot (hat' _) hdepth,
      traverse_eq (fun _ => by simp) (.inl fun _ => rfl) hroot (hat' _) hdepth] at hmoved
    have hcalls : ∃ arg, calls (fun _ _ (arg : Unit) => some arg) (tree.visits root) () = some arg :=
      calls_isSome (fun _ _ arg => ⟨arg,rfl⟩) _ ()
    obtain ⟨arg,hcalls⟩ := hcalls
    rw [hcalls] at hmoved
    cases hmoved
  · intro hshort realloc hne
    have htraverse : ∀ (σ : Type) (fn : Str → Mode → σ → Option σ) (arg : σ),
        traverse { system with realloc := realloc } fn depth root arg =
          traverse { system with realloc := fun _ => .inPlace } fn depth root arg := by
      intro σ fn arg
      rw [traverse_eq hne (.inr hshort) hroot (hat' _) hdepth,
        traverse_eq (fun _ => by simp) (.inl fun _ => rfl) hroot (hat' _) hdepth]
    refine ⟨htraverse,?_⟩
    rw [main_eq_traverse,main_eq_traverse,htraverse]

theorem moving_invisible_iff_test :
    (∀ realloc : ℕ → Realloc, (∀ n, realloc n ≠ .failed) → Alike 3 [114]
        { sampleSystem with realloc := realloc } { sampleSystem with realloc := fun _ => .inPlace }) ↔
      ∀ visit ∈ sampleTree.visits [114], sIsDir visit.2 = true →
        visit.1.length ≤ startSize [114]/2 :=
  moving_invisible_iff sampleSystem [114] sampleTree 3 (by decide) sampleTree_at (by decide)

/-- A directory without entries whose path has 2049 bytes. -/
def longRoot : Str := List.replicate 2049 97

def longSystem (realloc : Realloc) : System where
  lstat path := if path = longRoot then some 0o040755 else none
  opendir path := if path = longRoot++[slash] then some [dot,dotDot] else none
  realloc _ := realloc
  stale _ _ := 170

/-- Where the buffer is moved, printing the name of the directory is undefined. -/
theorem moving_visible :
    traverse (longSystem .inPlace) (fun path _ log => some (log++[path])) 1 longRoot [] =
        some (some ([longRoot],longRoot)) ∧
      traverse (longSystem .moved) (fun path _ log => some (log++[path])) 1 longRoot [] = none := by
  have hroot : 0 ∉ longRoot := by
    intro hmem
    exact absurd (List.eq_of_mem_replicate hmem) (by decide)
  have hlen : longRoot.length = 2049 := List.length_replicate
  have hat : ∀ realloc, (Node.dir 0o040755 (by decide) .nil).At (longSystem realloc) longRoot := by
    intro realloc
    simp [Node.At,Entries.At,Entries.names,longSystem,isDots]
  have hlong : ¬ Short (startSize longRoot/2)
      ((Node.dir 0o040755 (by decide) .nil).visits longRoot) := by
    intro hshort
    have hle : longRoot.length ≤ startSize longRoot/2 :=
      hshort (longRoot,0o040755) List.mem_cons_self (by decide)
    have hsize : startSize longRoot = 4097 := by
      rw [startSize,hlen]
      decide
    rw [hsize,hlen] at hle
    omega
  constructor
  · rw [traverse_eq (fun _ => by simp [longSystem]) (.inl fun _ => rfl) hroot (hat .inPlace) (by decide)]
    rfl
  · exact traverse_moved (fun _ => rfl) (fun path _ log => ⟨log++[path],rfl⟩) hlong hroot (hat .moved)
      (by decide) []

end CStudy.DirWalk
