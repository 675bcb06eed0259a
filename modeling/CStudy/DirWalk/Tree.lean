import CStudy.DirWalk.Model

/-! Finite directory trees, their nodes in the order in which a walk should come to them, and what it
means that there is such a tree in the file system. -/
namespace CStudy.DirWalk

/-- The name of an entry of a directory. -/
structure Name where
  bytes : Str
  nonempty : bytes ≠ []
  short : bytes.length ≤ 255
  noNul : 0 ∉ bytes
  noSlash : slash ∉ bytes
  notDot : bytes ≠ dot
  notDotDot : bytes ≠ dotDot

mutual
inductive Node
  | leaf (mode : Mode) (notDir : sIsDir mode = false)
  | dir (mode : Mode) (isDir : sIsDir mode = true) (entries : Entries)

/-- The entries of a directory in the order of `readdir`. -/
inductive Entries
  | nil
  | cons (name : Name) (node : Node) (rest : Entries)
end

def Entries.names : Entries → List Str
  | .nil => []
  | .cons name _ rest => name.bytes::rest.names

mutual
/-- The nodes with their paths: a directory before its entries, and these one after another. -/
def Node.visits (path : Str) : Node → List (Str × Mode)
  | .leaf mode _ => [(path,mode)]
  | .dir mode _ entries => (path,mode)::entries.visits (path++[slash])

def Entries.visits (dir : Str) : Entries → List (Str × Mode)
  | .nil => []
  | .cons name node rest => node.visits (dir++name.bytes)++rest.visits dir
end

mutual
def Node.depth : Node → ℕ
  | .leaf _ _ => 1
  | .dir _ _ entries => entries.depth+1

def Entries.depth : Entries → ℕ
  | .nil => 0
  | .cons _ node rest => max node.depth rest.depth
end

mutual
def Node.size : Node → ℕ
  | .leaf _ _ => 1
  | .dir _ _ entries => entries.size+1

def Entries.size : Entries → ℕ
  | .nil => 0
  | .cons _ node rest => node.size+rest.size
end

def isDots (name : Str) : Bool := decide (name = dot ∨ name = dotDot)

mutual
/-- The tree is in the file system under this path, and `lstat` and `opendir` succeed on all of it.
A directory lists its entries with `.` and `..` somewhere between them. -/
def Node.At (system : System) (path : Str) : Node → Prop
  | .leaf mode _ => system.lstat path = some mode
  | .dir mode _ entries => system.lstat path = some mode ∧
    (∃ names, system.opendir (path++[slash]) = some names ∧
      names.filter (fun name => !isDots name) = entries.names) ∧
    entries.At system (path++[slash])

def Entries.At (system : System) (dir : Str) : Entries → Prop
  | .nil => True
  | .cons name node rest => node.At system (dir++name.bytes) ∧ rest.At system dir
end

mutual
/-- What the system shows of the tree under this path. `lstat` and `opendir` may fail on any part of
it. -/
def Node.Shown (system : System) (path : Str) : Node → Prop
  | .leaf mode _ => system.lstat path = none ∨ system.lstat path = some mode
  | .dir mode _ entries => (system.lstat path = none ∨ system.lstat path = some mode) ∧
    (∀ names, system.opendir (path++[slash]) = some names →
      names.filter (fun name => !isDots name) = entries.names) ∧
    entries.Shown system (path++[slash])

def Entries.Shown (system : System) (dir : Str) : Entries → Prop
  | .nil => True
  | .cons name node rest => node.Shown system (dir++name.bytes) ∧ rest.Shown system dir
end

section Outcome
variable {σ : Type} (system : System) (fn : Str → Mode → σ → Option σ)

mutual
/-- The walk without its buffer: what it returns, and what the callback has made of its argument. A
call that fails ends it. -/
def Node.outcome (path : Str) : Node → σ → Option (ℤ × σ)
  | .leaf _ _,arg =>
    match system.lstat path with
    | none => some (-1,arg)
    | some mode => (fn path mode arg).map fun arg => (0,arg)
  | .dir _ _ entries,arg =>
    match system.lstat path with
    | none => some (-1,arg)
    | some mode => (fn path mode arg).bind fun arg =>
      match system.opendir (path++[slash]) with
      | none => some (-1,arg)
      | some _ => entries.outcome (path++[slash]) arg

def Entries.outcome (dir : Str) : Entries → σ → Option (ℤ × σ)
  | .nil,arg => some (0,arg)
  | .cons name node rest,arg => (node.outcome (dir++name.bytes) arg).bind fun r =>
    if r.1 ≠ 0 then some r else rest.outcome dir r.2
end

/-- The calls of the callback for some nodes, one after another. -/
def calls (visits : List (Str × Mode)) (arg : σ) : Option σ :=
  visits.foldlM (fun arg visit => fn visit.1 visit.2 arg) arg

end Outcome

mutual
theorem Node.shown_of_at {system : System} (node : Node) {path : Str} (h : node.At system path) :
    node.Shown system path := by
  cases node with
  | leaf mode _ =>
    rw [Node.At] at h
    rw [Node.Shown]
    exact .inr h
  | dir mode _ entries =>
    rw [Node.At] at h
    obtain ⟨hstat,⟨names,hopen,hnames⟩,hentries⟩ := h
    rw [Node.Shown]
    refine ⟨.inr hstat,?_,Entries.shown_of_at entries hentries⟩
    intro names' hopen'
    cases hopen.symm.trans hopen'
    exact hnames

theorem Entries.shown_of_at {system : System} (entries : Entries) {dir : Str}
    (h : entries.At system dir) : entries.Shown system dir := by
  cases entries with
  | nil => trivial
  | cons name node rest =>
    rw [Entries.At] at h
    rw [Entries.Shown]
    exact ⟨Node.shown_of_at node h.1,Entries.shown_of_at rest h.2⟩
end

section Calls
variable {σ : Type} {system : System} {fn : Str → Mode → σ → Option σ}

theorem calls_cons {path : Str} {mode : Mode} {visits : List (Str × Mode)} {arg : σ} :
    calls fn ((path,mode)::visits) arg = (fn path mode arg).bind (calls fn visits) := rfl

theorem calls_append {visits more : List (Str × Mode)} {arg : σ} :
    calls fn (visits++more) arg = (calls fn visits arg).bind (calls fn more) :=
  List.foldlM_append

mutual
/-- Where no call fails, the callback is called for the nodes in their order. -/
theorem Node.outcome_of_at (node : Node) {path : Str} (h : node.At system path) (arg : σ) :
    node.outcome system fn path arg =
      (calls fn (node.visits path) arg).map fun arg => ((0 : ℤ),arg) := by
  cases node with
  | leaf mode _ =>
    rw [Node.At] at h
    rw [Node.outcome,h,Node.visits,calls_cons,Option.map_bind]
    exact Option.map_eq_bind
  | dir mode _ entries =>
    rw [Node.At] at h
    obtain ⟨hstat,⟨names,hopen,_⟩,hentries⟩ := h
    rw [Node.outcome,hstat,Node.visits,calls_cons,Option.map_bind]
    simp only [hopen,Entries.outcome_of_at entries hentries]
    rfl

theorem Entries.outcome_of_at (entries : Entries) {dir : Str} (h : entries.At system dir) (arg : σ) :
    entries.outcome system fn dir arg =
      (calls fn (entries.visits dir) arg).map fun arg => ((0 : ℤ),arg) := by
  cases entries with
  | nil => simp [Entries.outcome,Entries.visits,calls]
  | cons name node rest =>
    rw [Entries.At] at h
    rw [Entries.outcome,Node.outcome_of_at node h.1,Entries.visits,calls_append,Option.map_bind,
      Option.bind_map]
    simp only [Entries.outcome_of_at rest h.2]
    rfl
end

end Calls

theorem Node.exists_depth_eq {node : Node} {depth : ℕ} (h : node.depth ≤ depth) :
    ∃ below, depth = below+1 := by
  refine Nat.exists_eq_add_one.mpr ?_
  cases node with
  | leaf mode _ =>
    rw [Node.depth] at h
    omega
  | dir mode _ entries =>
    rw [Node.depth] at h
    omega

mutual
theorem Node.length_visits (path : Str) (node : Node) : (node.visits path).length = node.size := by
  cases node with
  | leaf mode _ => rfl
  | dir mode _ entries => simp [Node.visits,Node.size,Entries.length_visits]

theorem Entries.length_visits (dir : Str) (entries : Entries) :
    (entries.visits dir).length = entries.size := by
  cases entries with
  | nil => rfl
  | cons name node rest =>
    simp [Entries.visits,Entries.size,Node.length_visits,Entries.length_visits]
end

end CStudy.DirWalk
