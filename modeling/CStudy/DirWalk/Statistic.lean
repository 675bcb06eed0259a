import CStudy.DirWalk.Traversal

/-! What the program prints. The callback counts each node under its type, and in a tree of fewer
than 2^31 nodes no counter overflows. -/
namespace CStudy.DirWalk
open CStudy.Foundation

/-- The number of nodes of each type, added to what has been counted before. -/
def FileStatistic.tally (fs : FileStatistic) (visits : List (Str × Mode)) : FileStatistic where
  regularFiles := fs.regularFiles+visits.countP fun visit => sIsReg visit.2
  blockDevices := fs.blockDevices+visits.countP fun visit => sIsBlk visit.2
  characterDevices := fs.characterDevices+visits.countP fun visit => sIsChr visit.2
  fifos := fs.fifos+visits.countP fun visit => sIsFifo visit.2
  links := fs.links+visits.countP fun visit => sIsLnk visit.2
  sockets := fs.sockets+visits.countP fun visit => sIsSock visit.2
  directories := fs.directories+visits.countP fun visit => sIsDir visit.2

/-- Each counter can be incremented `n` times. -/
def FileStatistic.Below (fs : FileStatistic) (n : ℕ) : Prop :=
  fs.regularFiles+n < 2^31 ∧ fs.blockDevices+n < 2^31 ∧ fs.characterDevices+n < 2^31 ∧
    fs.fifos+n < 2^31 ∧ fs.links+n < 2^31 ∧ fs.sockets+n < 2^31 ∧ fs.directories+n < 2^31

section Counting
variable {fs : FileStatistic} {path : Str} {mode : Mode} {visits : List (Str × Mode)} {n : ℕ}

theorem increment_eq {x : ℤ} (h : x+1 < 2^31) : increment x = some (x+1) := by
  rw [increment,if_pos (by omega)]

theorem fileCallback_eq (h : fs.Below (n+1)) :
    fileCallback path mode fs = some (fs.tally [(path,mode)]) := by
  obtain ⟨h₁,h₂,h₃,h₄,h₅,h₆,h₇⟩ := h
  push_cast at h₁ h₂ h₃ h₄ h₅ h₆ h₇
  have e₁ := increment_eq (x := fs.regularFiles) (by omega)
  have e₂ := increment_eq (x := fs.blockDevices) (by omega)
  have e₃ := increment_eq (x := fs.characterDevices) (by omega)
  have e₄ := increment_eq (x := fs.fifos) (by omega)
  have e₅ := increment_eq (x := fs.links) (by omega)
  have e₆ := increment_eq (x := fs.sockets) (by omega)
  have e₇ := increment_eq (x := fs.directories) (by omega)
  simp only [fileCallback,FileStatistic.tally,List.countP_singleton,e₁,e₂,e₃,e₄,e₅,e₆,e₇,sIsReg,
    sIsBlk,sIsChr,sIsFifo,sIsLnk,sIsSock,sIsDir,hasType,decide_eq_true_eq,Option.map_some]
  generalize mode &&& sIfmt = type
  -- the types exclude one another, so that only the counter of the first that fits is changed
  by_cases hreg : type = 0o100000
  · simp [hreg]
  by_cases hblk : type = 0o060000
  · simp [hblk]
  by_cases hchr : type = 0o020000
  · simp [hchr]
  by_cases hfifo : type = 0o010000
  · simp [hfifo]
  by_cases hlnk : type = 0o120000
  · simp [hlnk]
  by_cases hsock : type = 0o140000
  · simp [hsock]
  by_cases hdir : type = 0o040000
  · simp [hdir]
  simp [hreg,hblk,hchr,hfifo,hlnk,hsock,hdir]

theorem tally_nil : fs.tally [] = fs := by simp [FileStatistic.tally]

theorem tally_cons (visit : Str × Mode) :
    (fs.tally [visit]).tally visits = fs.tally (visit::visits) := by
  simp only [FileStatistic.tally,List.countP_cons,List.countP_nil,Nat.cast_add,FileStatistic.mk.injEq]
  refine ⟨?_,?_,?_,?_,?_,?_,?_⟩ <;> omega

theorem FileStatistic.Below.tally (h : fs.Below (n+1)) (visit : Str × Mode) :
    (fs.tally [visit]).Below n := by
  simp only [FileStatistic.Below,FileStatistic.tally,List.countP_singleton] at h ⊢
  refine ⟨?_,?_,?_,?_,?_,?_,?_⟩ <;> split_ifs <;> omega

theorem calls_fileCallback (h : fs.Below visits.length) :
    calls fileCallback visits fs = some (fs.tally visits) := by
  induction visits generalizing fs with
  | nil => rw [tally_nil]; rfl
  | cons visit visits ih =>
    rw [calls,List.foldlM_cons,fileCallback_eq h]
    exact (ih (h.tally visit)).trans (congrArg some (tally_cons visit))

end Counting

section Main
variable {σ : Type} {system : System}

/-- The callback as a function that cannot fail. -/
theorem calls_some (fn : Str → Mode → σ → σ) (arg : σ) (visits : List (Str × Mode)) :
    calls (fun path mode arg => some (fn path mode arg)) visits arg =
      some (visits.foldl (fun arg visit => fn visit.1 visit.2 arg) arg) := by
  induction visits generalizing arg with
  | nil => rfl
  | cons visit visits ih => exact ih _

theorem holds_malloc (stale : ℕ → UInt8) (size : ℕ) (arg : σ) :
    Holds ⟨Function.update (fun _ => none) 0 (some (resize stale [] size)),1,1,[],arg⟩ 0 [] size
      arg := by
  refine ⟨⟨resize stale [] size,by simp,?_⟩,rfl⟩
  rw [List.length_nil,length_resize,Nat.zero_add]

/-- The buffer is large enough for the root. -/
theorem prepare_eq (hinPlace : ∀ n, system.realloc n = .inPlace) (root : Str) (arg : σ) :
    ∃ bufLen s, prepare system root arg = some (some 0,bufLen,s) ∧ pathMax+1 ≤ bufLen ∧
      root.length < bufLen ∧ Holds s 0 (root++[0]) bufLen arg := by
  have hs := holds_malloc (system.stale 0) (pathMax+1) arg
  rw [prepare]
  split_ifs with hlong
  · have hlarge : pathMax+1 ≤ root.length*2 := by omega
    rw [pathMax] at hlong
    obtain ⟨s',hrealloc,h'⟩ := hs.realloc hinPlace (Nat.zero_le (root.length*2))
    have hroom : ([] : Str).length+root.length < root.length*2 := by
      rw [List.length_nil]
      omega
    obtain ⟨s'',hcopy,h''⟩ := h'.strcpy hroom
    refine ⟨root.length*2,s'',?_,hlarge,by omega,h''⟩
    rw [hrealloc,Option.bind_some]
    exact Option.map_eq_some_iff.mpr ⟨s'',hcopy,rfl⟩
  · have hroom : ([] : Str).length+root.length < pathMax+1 := by
      rw [List.length_nil]
      omega
    obtain ⟨s',hcopy,h'⟩ := hs.strcpy hroom
    refine ⟨pathMax+1,s',?_,le_rfl,by omega,h'⟩
    exact Option.map_eq_some_iff.mpr ⟨s',hcopy,rfl⟩

end Main

/-- For every tree in the file system, `realloc` succeeding in place: whatever the callback is, the
walk from `main` calls it for the nodes of the tree, each once and in order, with their paths, returns
0, and leaves the root path in the buffer; and the program prints the number of nodes of each type. -/
theorem dirWalk_preorder (system : System) (root : Str) (tree : Node) (depth : ℕ)
    (hroot : 0 ∉ root) (hat : tree.At system root) (hinPlace : ∀ n, system.realloc n = .inPlace)
    (hdepth : tree.depth ≤ depth) (hsize : tree.size < 2^31) :
    (∀ (σ : Type) (fn : Str → Mode → σ → σ) (arg : σ), ∃ bufLen s s',
      prepare system root arg = some (some 0,bufLen,s) ∧
      dirWalk system (fun path mode arg => some (fn path mode arg)) depth 0 bufLen s = some (0,s') ∧
      s'.arg = (tree.visits root).foldl (fun arg visit => fn visit.1 visit.2 arg) arg ∧
      s'.string 0 = some root) ∧
    main system depth root =
      some (0,some (printStatistic root (FileStatistic.zero.tally (tree.visits root)))) := by
  constructor
  · intro σ fn arg
    obtain ⟨bufLen,s,hprepare,hlarge,hfits,h⟩ := prepare_eq hinPlace root arg
    have hbuf : 514 ≤ bufLen := le_trans (by decide) hlarge
    obtain ⟨s',hwalk,h'⟩ := tree.dirWalk_eq hinPlace hat hroot hdepth hbuf hfits h (calls_some fn arg _)
    exact ⟨bufLen,s,s',hprepare,hwalk,h'.arg,h'.string hroot⟩
  · have hbelow : FileStatistic.zero.Below (tree.visits root).length := by
      rw [tree.length_visits]
      simp only [FileStatistic.Below,FileStatistic.zero]
      omega
    obtain ⟨bufLen,s,hprepare,hlarge,hfits,h⟩ :=
      prepare_eq hinPlace root FileStatistic.zero
    have hbuf : 514 ≤ bufLen := le_trans (by decide) hlarge
    obtain ⟨s',hwalk,h'⟩ := tree.dirWalk_eq hinPlace hat hroot hdepth hbuf hfits h
      (calls_fileCallback hbelow)
    simp only [main,hprepare,hwalk,h'.string hroot,h'.arg,Option.bind_eq_bind,Option.bind_some]
    rfl

/-- A directory `"r"` with a file `"a"` and a directory `"d"`, in which there is a link `"l"`. -/
def sampleTree : Node :=
  .dir 0o040755 (by decide)
    (.cons ⟨[97],by decide,by decide,by decide,by decide,by decide,by decide⟩
      (.leaf 0o100644 (by decide))
      (.cons ⟨[100],by decide,by decide,by decide,by decide,by decide,by decide⟩
        (.dir 0o040755 (by decide)
          (.cons ⟨[108],by decide,by decide,by decide,by decide,by decide,by decide⟩
            (.leaf 0o120777 (by decide)) .nil)) .nil))

def sampleSystem : System where
  lstat path :=
    if path = [114] ∨ path = [114,47,100] then some 0o040755
    else if path = [114,47,97] then some 0o100644
    else if path = [114,47,100,47,108] then some 0o120777
    else none
  opendir path :=
    if path = [114,47] then some [[46],[97],[46,46],[100]]
    else if path = [114,47,100,47] then some [[46],[46,46],[108]]
    else none
  realloc _ := .inPlace
  stale _ _ := 170

theorem sampleTree_at : sampleTree.At sampleSystem [114] := by
  simp [sampleTree,sampleSystem,Node.At,Entries.At,Entries.names,isDots,dot,dotDot,slash]

theorem dirWalk_preorder_test : sampleTree.visits [114] =
      [([114],0o040755),([114,47,97],0o100644),([114,47,100],0o040755),
        ([114,47,100,47,108],0o120777)] ∧
    main sampleSystem 3 [114] = some (0,some (printStatistic [114] ⟨1,0,0,0,1,0,2⟩)) := by
  refine ⟨by decide,?_⟩
  exact (dirWalk_preorder sampleSystem [114] sampleTree 3 (by decide) sampleTree_at (fun _ => rfl)
    (by decide) (by decide)).2

end CStudy.DirWalk
