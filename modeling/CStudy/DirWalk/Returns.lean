import CStudy.DirWalk.Statistic

/-! The walk when `lstat` and `opendir` fail. Every write is within the buffer, also where a caller has
an older size of it. The path is cut back to what it was, except where a directory cannot be opened:
there the call returns with a slash behind the path. -/
namespace CStudy.DirWalk
open CStudy.Foundation

/-- What `main` and `dir_walk` itself give to a call: a buffer that is as large as they say and not
smaller than the first one, with the path in it. -/
structure Ready {σ : Type} (s : State σ) (p : ℕ) (path : Str) (bufLen : ℕ) : Prop where
  noNul : 0 ∉ path
  large : pathMax+1 ≤ bufLen
  fits : path.length < bufLen
  holds : Holds s p (path++[0]) bufLen s.arg

section Returning
variable {σ : Type} {system : System} {s : State σ} {p bufLen depth : ℕ} {path : Str} {tree : Node}

theorem ready_prepare (hinPlace : ∀ n, system.realloc n = .inPlace) {root : Str} (hroot : 0 ∉ root)
    (arg : σ) : ∃ bufLen s, prepare system root arg = some (some 0,bufLen,s) ∧
      Ready s 0 root bufLen := by
  obtain ⟨bufLen,s,hprepare,hlarge,hfits,h⟩ := prepare_eq hinPlace root arg
  exact ⟨bufLen,s,hprepare,hroot,hlarge,hfits,h.block,rfl⟩

mutual
/-- A callback that returns lets the walk return. -/
theorem Node.outcome_isSome (fn : Str → Mode → σ → σ) (node : Node) (path : Str) (arg : σ) :
    ∃ ret arg', node.outcome system (fun path mode arg => some (fn path mode arg)) path arg =
      some (ret,arg') ∧ (ret = 0 ∨ ret = -1) := by
  cases node with
  | leaf mode _ =>
    rw [Node.outcome]
    cases system.lstat path with
    | none => exact ⟨-1,arg,rfl,.inr rfl⟩
    | some mode => exact ⟨0,_,rfl,.inl rfl⟩
  | dir mode _ entries =>
    rw [Node.outcome]
    cases system.lstat path with
    | none => exact ⟨-1,arg,rfl,.inr rfl⟩
    | some mode =>
      dsimp only [Option.bind_some]
      cases system.opendir (path++[slash]) with
      | none => exact ⟨-1,_,rfl,.inr rfl⟩
      | some names => exact Entries.outcome_isSome fn entries (path++[slash]) (fn path mode arg)

theorem Entries.outcome_isSome (fn : Str → Mode → σ → σ) (entries : Entries) (dir : Str) (arg : σ) :
    ∃ ret arg', entries.outcome system (fun path mode arg => some (fn path mode arg)) dir arg =
      some (ret,arg') ∧ (ret = 0 ∨ ret = -1) := by
  cases entries with
  | nil => exact ⟨0,arg,rfl,.inl rfl⟩
  | cons name node rest =>
    obtain ⟨ret,arg',hnode,hret⟩ := Node.outcome_isSome fn node (dir++name.bytes) arg
    rw [Entries.outcome,hnode,Option.bind_some]
    split_ifs with hzero
    · exact ⟨ret,arg',rfl,hret⟩
    · exact Entries.outcome_isSome fn rest dir arg'
end

theorem unopened_iff : unopened system path = true ↔ ∃ mode, system.lstat path = some mode ∧
    sIsDir mode = true ∧ system.opendir (path++[slash]) = none := by
  rw [unopened]
  cases system.lstat path <;> simp

/-- A call returns, and leaves its path with a trail. -/
theorem Ready.dirWalk (h : Ready s p path bufLen) (hinPlace : ∀ n, system.realloc n = .inPlace)
    (hshown : tree.Shown system path) (hdepth : tree.depth ≤ depth) (fn : Str → Mode → σ → σ) :
    ∃ ret s', DirWalk.dirWalk system (fun path mode arg => some (fn path mode arg)) depth p bufLen s =
        some (ret,s') ∧ (ret = 0 ∨ ret = -1) ∧ Holds s' p (path++trail system path) bufLen s'.arg := by
  have hsize : 514 ≤ bufLen := le_trans (by decide) h.large
  have hfollows : Follows p (path++trail system path) bufLen
      (DirWalk.dirWalk system (fun path mode arg => some (fn path mode arg)) depth p bufLen s)
      (tree.outcome system (fun path mode arg => some (fn path mode arg)) path s.arg) :=
    tree.dirWalk_follows (.inl hinPlace) hshown h.noNul hdepth hsize h.fits h.holds
  obtain ⟨ret,arg',hout,hret⟩ := tree.outcome_isSome fn path s.arg
  rw [hout] at hfollows
  obtain ⟨s',hwalk,hs'⟩ := hfollows
  refine ⟨ret,s',hwalk,hret,hs'.block,rfl⟩

theorem Holds.string_trail {size : ℕ} {arg : σ} (h : Holds s p (path++trail system path) size arg)
    (hpath : 0 ∉ path) :
    s.string p = some (if unopened system path then path++[slash] else path) := by
  rw [trail] at h
  split_ifs at h ⊢ with hopen
  · rw [List.append_cons] at h
    exact h.string (by simpa [slash] using hpath)
  · exact h.string hpath

end Returning

/-- For every root, every finite tree and every pattern of failing `lstat` and `opendir` calls, and
whatever the callback does: the copy of the root, and the walk with all its writes, are defined. So no
write is beyond the end of the buffer. -/
theorem dirWalk_in_bounds (system : System) (root : Str) (tree : Node) (depth : ℕ)
    (hroot : 0 ∉ root) (hshown : tree.Shown system root) (hinPlace : ∀ n, system.realloc n = .inPlace)
    (hdepth : tree.depth ≤ depth) (σ : Type) (fn : Str → Mode → σ → σ) (arg : σ) :
    ∃ bufLen s ret s', prepare system root arg = some (some 0,bufLen,s) ∧
      dirWalk system (fun path mode arg => some (fn path mode arg)) depth 0 bufLen s =
        some (ret,s') ∧ (s'.string 0).isSome = true := by
  obtain ⟨bufLen,s,hprepare,hready⟩ := ready_prepare hinPlace hroot arg
  obtain ⟨ret,s',hwalk,_,hs'⟩ := hready.dirWalk hinPlace hshown hdepth fn
  refine ⟨bufLen,s,ret,s',hprepare,hwalk,?_⟩
  rw [hs'.string_trail hroot]
  rfl

theorem dirWalk_in_bounds_test : ∃ bufLen s ret s',
    prepare sampleSystem [114] 0 = some (some 0,bufLen,s) ∧
    dirWalk sampleSystem (fun _ _ count => some (count+1)) 3 0 bufLen s = some (ret,s') ∧
    (s'.string 0).isSome = true :=
  dirWalk_in_bounds sampleSystem [114] sampleTree 3 (by decide) (sampleTree.shown_of_at sampleTree_at)
    (fun _ => rfl) (by decide) ℕ (fun _ _ count => count+1) 0

/-- For every call of the walk, with whatever `lstat` and `opendir` calls fail: the call returns 0 or
-1, and the buffer then holds the path it held before exactly if that is not the path of a directory
that cannot be opened. -/
theorem dirWalk_restores_iff (system : System) (path : Str) (tree : Node) (depth : ℕ)
    (hshown : tree.Shown system path) (hinPlace : ∀ n, system.realloc n = .inPlace)
    (hdepth : tree.depth ≤ depth) (σ : Type) (fn : Str → Mode → σ → σ) (s : State σ) (p bufLen : ℕ)
    (h : Ready s p path bufLen) :
    ∃ ret s', dirWalk system (fun path mode arg => some (fn path mode arg)) depth p bufLen s =
        some (ret,s') ∧ (ret = 0 ∨ ret = -1) ∧
      (s'.string p = some path ↔
        ¬ ∃ mode, system.lstat path = some mode ∧ sIsDir mode = true ∧
          system.opendir (path++[slash]) = none) := by
  obtain ⟨ret,s',hwalk,hret,hs'⟩ := h.dirWalk hinPlace hshown hdepth fn
  refine ⟨ret,s',hwalk,hret,?_⟩
  rw [hs'.string_trail h.noNul,← unopened_iff]
  cases unopened system path <;> simp

/-- The call from `main`. -/
theorem dirWalk_restores_iff_test : ∃ bufLen s ret s',
    prepare sampleSystem [114] () = some (some 0,bufLen,s) ∧
    dirWalk sampleSystem (fun _ _ arg => some arg) 3 0 bufLen s = some (ret,s') ∧
    (ret = 0 ∨ ret = -1) ∧ (s'.string 0 = some [114] ↔
      ¬ ∃ mode, sampleSystem.lstat [114] = some mode ∧ sIsDir mode = true ∧
        sampleSystem.opendir [114,47] = none) := by
  have hinPlace : ∀ n, sampleSystem.realloc n = .inPlace := fun _ => rfl
  have hroot : 0 ∉ [(114 : UInt8)] := by decide
  obtain ⟨bufLen,s,hprepare,hready⟩ := ready_prepare hinPlace hroot ()
  obtain ⟨ret,s',h⟩ := dirWalk_restores_iff sampleSystem [114] sampleTree 3
    (sampleTree.shown_of_at sampleTree_at) hinPlace (by decide) Unit (fun _ _ arg => arg) s 0
    bufLen hready
  exact ⟨bufLen,s,ret,s',hprepare,h⟩

/-- The directory `"r"` cannot be opened. -/
def closedSystem : System where
  lstat path := if path = [114] then some 0o040755 else none
  opendir _ := none
  realloc _ := .inPlace
  stale _ _ := 170

/-- A walk from `"r"` ends with `"r/"` in the buffer. -/
theorem dirWalk_leaves_slash : ∃ bufLen s s', prepare closedSystem [114] () = some (some 0,bufLen,s) ∧
    s.string 0 = some [114] ∧
    dirWalk closedSystem (fun _ _ arg => some arg) 1 0 bufLen s = some (-1,s') ∧
    s'.string 0 = some [114,47] := by
  have hinPlace : ∀ n, closedSystem.realloc n = .inPlace := fun _ => rfl
  have hpath : 0 ∉ [(114 : UInt8)] := by decide
  obtain ⟨bufLen,s,hprepare,hready⟩ := ready_prepare hinPlace hpath ()
  have hshown : (Node.dir 0o040755 (by decide) .nil).Shown closedSystem [114] := by
    simp [Node.Shown,Entries.Shown,closedSystem]
  have hfollows : Follows 0 ([114]++trail closedSystem [114]) bufLen
      (dirWalk closedSystem (fun _ _ arg => some arg) 1 0 bufLen s) (some (-1,s.arg)) :=
    Node.dirWalk_follows _ (.inl hinPlace) hshown hpath (by decide)
      (le_trans (by decide) hready.large) hready.fits hready.holds
  obtain ⟨s',hwalk,hs'⟩ := hfollows
  refine ⟨bufLen,s,s',hprepare,hready.holds.string hpath,hwalk,?_⟩
  rw [hs'.string_trail hpath]
  rfl

end CStudy.DirWalk
