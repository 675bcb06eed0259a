import CStudy.DirWalk.Tree

/-! The walk comes to every node of a tree once, in the right order. What the buffer holds is told by
the bytes it begins with: a level appends to the path of its directory, a call below it gives this
path back, and what lies behind it does not matter. -/
namespace CStudy.DirWalk
open CStudy.Foundation

/-- The buffer begins with `front` and has room for `size` bytes, and the callback is at `arg`. -/
structure Holds {σ : Type} (s : State σ) (p : ℕ) (front : List UInt8) (size : ℕ) (arg : σ) : Prop where
  block : ∃ back, s.blocks p = some (front++back) ∧ size ≤ front.length+back.length
  arg : s.arg = arg

section Buffer
variable {σ : Type} {system : System} {s : State σ} {p size size' : ℕ} {front more : List UInt8}
  {arg : σ} {name : Str}

theorem State.top_modify {s' : State σ} {f : List UInt8 → Option (List UInt8)}
    (h : s.modify p f = some s') : s'.top = s.top := by
  obtain ⟨memory,_,rfl⟩ := Option.map_eq_some_iff.mp h
  rfl

theorem Holds.shorten (h : Holds s p (front++more) size arg) : Holds s p front size arg := by
  obtain ⟨⟨back,hblock,hsize⟩,harg⟩ := h
  rw [List.append_assoc] at hblock
  refine ⟨⟨more++back,hblock,?_⟩,harg⟩
  simp only [List.length_append] at hsize ⊢
  omega

theorem Holds.mono (h : Holds s p front size arg) (hle : size' ≤ size) :
    Holds s p front size' arg := by
  obtain ⟨⟨back,hblock,hsize⟩,harg⟩ := h
  exact ⟨⟨back,hblock,hle.trans hsize⟩,harg⟩

theorem Holds.call (h : Holds s p front size arg) (arg' : σ) :
    Holds { s with arg := arg' } p front size arg' := ⟨h.block,rfl⟩

theorem Holds.string (h : Holds s p (name++[0]) size arg) (hname : 0 ∉ name) :
    s.string p = some name := by
  obtain ⟨⟨back,hblock,_⟩,_⟩ := h
  rw [State.string,hblock,Option.bind_some,List.append_assoc,List.singleton_append]
  exact Memory.string_append_cons hname

/-- A string is copied behind what the buffer begins with. -/
theorem Holds.strcpy (h : Holds s p front size arg) (hroom : front.length+name.length < size) :
    ∃ s', s.strcpy p front.length name = some s' ∧ Holds s' p (front++name++[0]) size arg := by
  obtain ⟨⟨back,hblock,hsize⟩,harg⟩ := h
  have hlen : (name++[0]).length ≤ back.length := by
    rw [List.length_append,List.length_singleton]
    omega
  rw [State.strcpy,State.modify,hblock,Option.bind_some,Memory.copy_append rfl hlen]
  refine ⟨_,rfl,⟨back.drop (name++[0]).length,?_,?_⟩,harg⟩
  · simp
  · simp only [List.length_append,List.length_singleton,List.length_drop] at hlen ⊢
    omega

theorem Holds.write (h : Holds s p front size arg) (hroom : front.length < size) (x : UInt8) :
    ∃ s', s.write p front.length x = some s' ∧ Holds s' p (front++[x]) size arg := by
  obtain ⟨⟨back,hblock,hsize⟩,harg⟩ := h
  have hback : back ≠ [] := List.ne_nil_of_length_pos (by omega)
  rw [State.write,State.modify,hblock,Option.bind_some,Memory.write_append rfl hback]
  refine ⟨_,rfl,⟨back.drop 1,?_,?_⟩,harg⟩
  · simp
  · simp only [List.length_append,List.length_singleton,List.length_drop]
    omega

theorem length_resize (stale : ℕ → UInt8) (memory : List UInt8) (size : ℕ) :
    (resize stale memory size).length = size := by
  simp only [resize,List.length_append,List.length_take,List.length_map,List.length_range]
  omega

theorem resize_append (stale : ℕ → UInt8) (back : List UInt8) (hfront : front.length ≤ size) :
    ∃ back', resize stale (front++back) size = front++back' ∧ size ≤ front.length+back'.length := by
  have hlen := length_resize stale (front++back) size
  rw [resize,List.take_append,List.take_of_length_le hfront,List.append_assoc] at hlen ⊢
  refine ⟨_,rfl,?_⟩
  rw [List.length_append] at hlen
  exact hlen.ge

/-- Enlarging the buffer in place keeps what it begins with. -/
theorem Holds.realloc (hinPlace : ∀ n, system.realloc n = .inPlace) (h : Holds s p front size arg)
    (hfront : front.length ≤ size') :
    ∃ s', DirWalk.realloc system s p size' = some (some p,s') ∧ Holds s' p front size' arg := by
  obtain ⟨⟨back,hblock,_⟩,harg⟩ := h
  obtain ⟨back',hresize,hsize⟩ :=
    resize_append (system.stale s.allocations) back hfront
  have hrealloc : DirWalk.realloc system s p size' = some (some p,{ s with
      allocations := s.allocations+1
      blocks := Function.update s.blocks p (some (front++back')) }) := by
    simp only [DirWalk.realloc,hblock,hinPlace,hresize,Option.map_some]
  exact ⟨_,hrealloc,⟨back',Function.update_self ..,hsize⟩,harg⟩

/-- A path that fits into the buffer leaves room for a slash and a name, if need be in a larger
one. -/
theorem Holds.enlarge (hgrow : (∀ n, system.realloc n = .inPlace) ∨ name.length ≤ size/2)
    (h : Holds s p (name++[0]) size arg) (hsize : 514 ≤ size) (hfits : name.length < size) :
    ∃ size' s', DirWalk.enlarge system p size name.length s = some (some p,size',s') ∧
      size ≤ size' ∧ name.length+257 ≤ size' ∧ Holds s' p (name++[0]) size' arg := by
  rw [DirWalk.enlarge]
  split_ifs with hlong
  · have hinPlace : ∀ n, system.realloc n = .inPlace := hgrow.resolve_right (by omega)
    have hfront : (name++[0]).length ≤ size*2 := by
      rw [List.length_append,List.length_singleton]
      omega
    obtain ⟨s',hrealloc,h'⟩ := h.realloc hinPlace hfront
    rw [hrealloc]
    exact ⟨_,s',rfl,by omega,by omega,h'⟩
  · exact ⟨size,s,rfl,le_rfl,by omega,h⟩

end Buffer

/-- No directory among them has a longer path. -/
def Short (limit : ℕ) (visits : List (Str × Mode)) : Prop :=
  ∀ visit ∈ visits, sIsDir visit.2 = true → visit.1.length ≤ limit

theorem Short.mono {limit limit' : ℕ} {visits : List (Str × Mode)} (h : Short limit visits)
    (hle : limit ≤ limit') : Short limit' visits :=
  fun visit hvisit hdir => (h visit hvisit hdir).trans hle

theorem short_cons {limit : ℕ} {visit : Str × Mode} {visits : List (Str × Mode)} :
    Short limit (visit::visits) ↔ (sIsDir visit.2 = true → visit.1.length ≤ limit) ∧
      Short limit visits := List.forall_mem_cons

theorem short_append {limit : ℕ} {visits more : List (Str × Mode)} :
    Short limit (visits++more) ↔ Short limit visits ∧ Short limit more := List.forall_mem_append

/-- The path is one of a directory that cannot be opened. -/
def unopened (system : System) (path : Str) : Bool :=
  match system.lstat path with
  | none => false
  | some mode => sIsDir mode && (system.opendir (path++[slash])).isNone

/-- What a walk leaves behind the path: where it has returned before the cut, a slash. -/
def trail (system : System) (path : Str) : List UInt8 :=
  if unopened system path then [slash,0] else [0]

/-- The walk ends as it should, with a buffer that begins with `front`. -/
def Follows {σ : Type} (p : ℕ) (front : List UInt8) (size : ℕ) (result : Option (ℤ × State σ)) :
    Option (ℤ × σ) → Prop
  | none => result = none
  | some (ret,arg) => ∃ s, result = some (ret,s) ∧ Holds s p front size arg

section Walk
variable {σ : Type} {system : System} {fn : Str → Mode → σ → Option σ} {p pathEnd : ℕ}
  {names : List Str}

section Steps
variable {s s₁ : State σ} {size size' : ℕ} {arg : σ}

/-- `.` and `..` are passed over. -/
theorem walkEntries_filter (walk : ℕ → ℕ → State σ → Option (ℤ × State σ)) :
    walkEntries walk p size pathEnd names s =
      walkEntries walk p size pathEnd (names.filter fun name => !isDots name) s := by
  induction names generalizing s with
  | nil => rfl
  | cons name names ih =>
    by_cases hdots : name = dot ∨ name = dotDot
    · rw [walkEntries,if_pos hdots,ih,List.filter_cons_of_neg (by simp [isDots,hdots])]
    · rw [List.filter_cons_of_pos (by simp [isDots,hdots]),walkEntries,walkEntries,if_neg hdots,
        if_neg hdots]
      simp only [ih]

/-- The directory is opened with a slash behind its path, in the buffer that there is after it has
been enlarged. -/
theorem walkDirectory_eq {q : ℕ} {path : Str} (hpath : 0 ∉ path)
    (walk : ℕ → ℕ → State σ → Option (ℤ × State σ))
    (henlarge : enlarge system p size path.length s = some (some q,size',s₁))
    (hroom : path.length+257 ≤ size') (h : Holds s₁ q (path++[0]) size' arg) :
    ∃ t, Holds t q (path++[slash]++[0]) size' arg ∧ t.top = s₁.top ∧
      walkDirectory system walk p size path.length s =
        match system.opendir (path++[slash]) with
        | none => some (-1,t.perror "opendir")
        | some names => (walkEntries walk q size' (path.length+1) names t).bind fun r =>
          (r.2.write q path.length 0).bind fun s => some (r.1,s) := by
  have hlen : path.length+1 = (path++[slash]).length := by simp
  have hdir : 0 ∉ path++[slash] := by simpa [slash] using hpath
  obtain ⟨s₂,hslash,h₂⟩ := h.shorten.write (by omega) slash
  obtain ⟨s₃,hnul,h₃⟩ := h₂.write (by rw [← hlen]; omega) 0
  refine ⟨s₃,h₃,(State.top_modify hnul).trans (State.top_modify hslash),?_⟩
  rw [← hlen] at hnul
  simp only [walkDirectory,henlarge,hslash,hnul,h₃.string hdir,Option.bind_eq_bind,Option.bind_some,
    Nat.add_sub_cancel]
  rfl

/-- The call up to the point where it has to do with a directory. -/
theorem dirWalk_succ {path : Str} {depth : ℕ} (hpath : 0 ∉ path) (h : Holds s p (path++[0]) size arg) :
    dirWalk system fn (depth+1) p size s =
      match system.lstat path with
      | none => some (-1,s.perror "lstat")
      | some mode => (fn path mode arg).bind fun arg =>
        if sIsDir mode then
          walkDirectory system (dirWalk system fn depth) p size path.length { s with arg := arg }
        else some (0,{ s with arg := arg }) := by
  simp only [dirWalk,h.string hpath,h.arg,Option.bind_eq_bind,Option.bind_some]
  cases system.lstat path with
  | none => rfl
  | some mode => cases hmode : sIsDir mode <;> simp [hmode]

theorem Holds.perror {front : List UInt8} (h : Holds s p front size arg) (message : String) :
    Holds (s.perror message) p front size arg := ⟨h.block,h.arg⟩

/-- The cut behind the entries of a directory. -/
theorem Follows.cut {path : Str} {result : Option (ℤ × State σ)} {outcome : Option (ℤ × σ)}
    (h : Follows p (path++[slash]) size' result outcome) (hle : size ≤ size')
    (hroom : path.length < size') :
    Follows p (path++[0]) size
      (result.bind fun r => (r.2.write p path.length 0).bind fun s => some (r.1,s)) outcome := by
  cases outcome with
  | none =>
    have hnone : result = none := h
    rw [hnone]
    rfl
  | some r =>
    obtain ⟨t,hresult,ht⟩ := h
    obtain ⟨u,hcut,hu⟩ := ht.shorten.write hroom 0
    refine ⟨u,?_,hu.mono hle⟩
    rw [hresult,Option.bind_some,hcut]
    rfl

theorem follows_lstat_failed {path : Str} (hstat : system.lstat path = none)
    (h : Holds s p (path++[0]) size arg) :
    Follows p (path++trail system path) size (some (-1,s.perror "lstat")) (some (-1,arg)) := by
  have htrail : trail system path = [0] := by simp [trail,unopened,hstat]
  rw [htrail]
  exact ⟨_,rfl,h.perror _⟩

/-- The part of a call that has to do with a directory, where the entries are walked as they
should. -/
theorem walkDirectory_follows {path : Str} {mode : Mode} {outcome : Option (ℤ × σ)}
    (walk : ℕ → ℕ → State σ → Option (ℤ × State σ)) (hstat : system.lstat path = some mode)
    (hmode : sIsDir mode = true) (hpath : 0 ∉ path) (hsize : 514 ≤ size) (hfits : path.length < size)
    (hgrow : (∀ n, system.realloc n = .inPlace) ∨ path.length ≤ size/2)
    (h : Holds s p (path++[0]) size arg)
    (hentries : ∀ names size' t, system.opendir (path++[slash]) = some names → size ≤ size' →
      path.length+257 ≤ size' → Holds t p (path++[slash]) size' arg →
      Follows p (path++[slash]) size' (walkEntries walk p size' (path.length+1) names t) outcome) :
    Follows p (path++trail system path) size (walkDirectory system walk p size path.length s)
      (match system.opendir (path++[slash]) with
        | none => some (-1,arg)
        | some _ => outcome) := by
  obtain ⟨size',s₁,henlarge,hle,hroom,h₁⟩ := h.enlarge hgrow hsize hfits
  obtain ⟨t,ht,_,hwalk⟩ := walkDirectory_eq hpath walk henlarge hroom h₁
  rw [hwalk]
  cases hnames : system.opendir (path++[slash]) with
  | none =>
    have htrail : trail system path = [slash,0] := by simp [trail,unopened,hstat,hmode,hnames]
    rw [htrail,List.append_cons]
    exact ⟨_,rfl,(ht.perror _).mono hle⟩
  | some names =>
    have htrail : trail system path = [0] := by simp [trail,unopened,hstat,hmode,hnames]
    rw [htrail]
    exact (hentries names size' t hnames hle hroom ht.shorten).cut hle (by omega)

end Steps

mutual
/-- A walk follows the tree, with whatever calls fail: it is the one on the tree, and leaves the path
as it was, except for the slash behind that of a directory that cannot be opened. -/
theorem Node.dirWalk_follows (node : Node) {path : Str} {depth size : ℕ} {s : State σ} {arg : σ}
    (hgrow : (∀ n, system.realloc n = .inPlace) ∨ Short (size/2) (node.visits path))
    (hshown : node.Shown system path) (hpath : 0 ∉ path) (hdepth : node.depth ≤ depth)
    (hsize : 514 ≤ size) (hfits : path.length < size) (h : Holds s p (path++[0]) size arg) :
    Follows p (path++trail system path) size (dirWalk system fn depth p size s)
      (node.outcome system fn path arg) := by
  obtain ⟨depth,rfl⟩ := Node.exists_depth_eq hdepth
  rw [dirWalk_succ hpath h]
  cases node with
  | leaf mode hleaf =>
    rw [Node.Shown] at hshown
    rw [Node.outcome]
    rcases hshown with hstat | hstat
    · rw [hstat]
      exact follows_lstat_failed hstat h
    · have htrail : trail system path = [0] := by simp [trail,unopened,hstat,hleaf]
      rw [hstat,htrail]
      dsimp only
      cases fn path mode arg with
      | none => rfl
      | some arg' =>
        rw [hleaf]
        exact ⟨_,rfl,h.call arg'⟩
  | dir mode hmode entries =>
    rw [Node.Shown] at hshown
    obtain ⟨hstat,hopen,hentries⟩ := hshown
    rw [Node.depth] at hdepth
    rw [Node.visits] at hgrow
    rw [Node.outcome]
    rcases hstat with hstat | hstat
    · rw [hstat]
      exact follows_lstat_failed hstat h
    · rw [hstat]
      dsimp only
      cases fn path mode arg with
      | none => rfl
      | some arg' =>
        rw [Option.bind_some,Option.bind_some,hmode,if_pos rfl]
        refine walkDirectory_follows _ hstat hmode hpath hsize hfits
          (hgrow.imp_right fun hshort => (short_cons.mp hshort).1 hmode) (h.call arg') ?_
        intro names size' t hnames hle hroom ht
        have hlen : path.length+1 = (path++[slash]).length := by simp
        have hdir : 0 ∉ path++[slash] := by simpa [slash] using hpath
        have hgrow' : (∀ n, system.realloc n = .inPlace) ∨
            Short (size'/2) (entries.visits (path++[slash])) :=
          hgrow.imp_right fun hshort => (short_cons.mp hshort).2.mono (Nat.div_le_div_right hle)
        rw [walkEntries_filter,hopen names hnames,hlen]
        exact Entries.walkEntries_follows entries hgrow' hentries hdir (by omega) (by omega)
          (by omega) ht

theorem Entries.walkEntries_follows (entries : Entries) {dir : Str} {depth size : ℕ} {s : State σ}
    {arg : σ} (hgrow : (∀ n, system.realloc n = .inPlace) ∨ Short (size/2) (entries.visits dir))
    (hshown : entries.Shown system dir) (hdir : 0 ∉ dir) (hdepth : entries.depth ≤ depth)
    (hsize : 514 ≤ size) (hfits : dir.length+256 ≤ size) (h : Holds s p dir size arg) :
    Follows p dir size (walkEntries (dirWalk system fn depth) p size dir.length entries.names s)
      (entries.outcome system fn dir arg) := by
  cases entries with
  | nil => exact ⟨s,rfl,h⟩
  | cons name node rest =>
    rw [Entries.depth,Nat.max_le] at hdepth
    rw [Entries.Shown] at hshown
    rw [Entries.visits] at hgrow
    have hshort := name.short
    have hpath : 0 ∉ dir++name.bytes := by simp [hdir,name.noNul]
    have hlen : (dir++name.bytes).length = dir.length+name.bytes.length := List.length_append
    have hnode : (∀ n, system.realloc n = .inPlace) ∨
        Short (size/2) (node.visits (dir++name.bytes)) :=
      hgrow.imp_right fun hshort => (short_append.mp hshort).1
    have hrest : (∀ n, system.realloc n = .inPlace) ∨ Short (size/2) (rest.visits dir) :=
      hgrow.imp_right fun hshort => (short_append.mp hshort).2
    have hroom : dir.length+name.bytes.length < size := by omega
    obtain ⟨s₁,hcopy,h₁⟩ := h.strcpy hroom
    have hfollows : Follows p (dir++name.bytes++trail system (dir++name.bytes)) size
        (dirWalk system fn depth p size s₁) (node.outcome system fn (dir++name.bytes) arg) :=
      Node.dirWalk_follows node hnode hshown.1 hpath hdepth.1 hsize (by omega) h₁
    rw [Entries.names,walkEntries,if_neg (not_or.mpr ⟨name.notDot,name.notDotDot⟩),Entries.outcome]
    simp only [hcopy,Option.bind_eq_bind,Option.bind_some]
    cases hout : node.outcome system fn (dir++name.bytes) arg with
    | none =>
      rw [hout] at hfollows
      have hnone : dirWalk system fn depth p size s₁ = none := hfollows
      rw [hnone]
      rfl
    | some r =>
      rw [hout] at hfollows
      obtain ⟨s₂,hwalk,h₂⟩ := hfollows
      rw [List.append_assoc] at h₂
      rw [hwalk,Option.bind_some,Option.bind_some]
      dsimp only
      split_ifs with hret
      · exact ⟨s₂,rfl,h₂.shorten⟩
      · exact Entries.walkEntries_follows rest hrest hshown.2 hdir hdepth.2 hsize hfits h₂.shorten
end

theorem Node.trail_of_at (node : Node) {path : Str} (h : node.At system path) :
    trail system path = [0] := by
  cases node with
  | leaf mode hleaf =>
    rw [Node.At] at h
    simp [trail,unopened,h,hleaf]
  | dir mode hmode entries =>
    rw [Node.At] at h
    obtain ⟨hstat,⟨names,hopen,_⟩,_⟩ := h
    simp [trail,unopened,hstat,hopen]

/-- A walk of a tree on which no call fails. -/
theorem Node.dirWalk_eq (hinPlace : ∀ n, system.realloc n = .inPlace) (node : Node) {path : Str}
    {depth size : ℕ} {s : State σ} {arg arg' : σ} (hat : node.At system path) (hpath : 0 ∉ path)
    (hdepth : node.depth ≤ depth) (hsize : 514 ≤ size) (hfits : path.length < size)
    (h : Holds s p (path++[0]) size arg) (hcalls : calls fn (node.visits path) arg = some arg') :
    ∃ s', dirWalk system fn depth p size s = some (0,s') ∧ Holds s' p (path++[0]) size arg' := by
  have hfollows : Follows p (path++trail system path) size (dirWalk system fn depth p size s)
      (node.outcome system fn path arg) :=
    node.dirWalk_follows (.inl hinPlace) (node.shown_of_at hat) hpath hdepth hsize hfits h
  rw [node.outcome_of_at hat,hcalls,node.trail_of_at hat] at hfollows
  exact hfollows

end Walk

end CStudy.DirWalk
