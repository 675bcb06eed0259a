import CStudy.SnakeGame.Placement

/-! Whether the foods are on the board. The distributions draw from closed intervals and reach one
past the last column and the last row. A point that is not on the board is neither on the snake nor
among foods that are, so the first one that is drawn becomes a food, which can never be eaten. -/
namespace CStudy.SnakeGame
open CStudy.Foundation

/-- All foods can be reached. -/
def Board.Reachable (board : Board) : Prop := ∀ p ∈ board.foods, board.isValidPoint p = true

/-- The outcomes for a column and a row are below the upper ends of their intervals. -/
def Inside (rows columns : ℤ) (r : ℕ × ℕ) : Prop :=
  uniformIntDistribution 0 columns r.1 ≠ columns ∧ uniformIntDistribution 0 rows r.2 ≠ rows

section Draws
variable {rows columns : ℤ}

theorem uniformIntDistribution_mem {b : ℤ} (hb : 0 ≤ b) (r : ℕ) :
    0 ≤ uniformIntDistribution 0 b r ∧ uniformIntDistribution 0 b r ≤ b := by
  have hlow := Int.emod_nonneg (r : ℤ) (show b-0+1 ≠ 0 by omega)
  have hhigh := Int.emod_lt_of_pos (r : ℤ) (show 0 < b-0+1 by omega)
  unfold uniformIntDistribution
  omega

/-- No integer of the interval is left out. -/
theorem exists_uniformIntDistribution_eq {a b v : ℤ} (ha : a ≤ v) (hb : v ≤ b) :
    ∃ r, uniformIntDistribution a b r = v := by
  refine ⟨(v-a).toNat,?_⟩
  rw [uniformIntDistribution,Int.toNat_of_nonneg (by omega),Int.emod_eq_of_lt (by omega) (by omega)]
  omega

/-- A drawn point is on the board if neither coordinate is at the upper end. -/
theorem isValidPoint_drawPoint {board : Board} (hrows : 0 ≤ board.rows)
    (hcolumns : 0 ≤ board.columns) (r : ℕ × ℕ) :
    board.isValidPoint (board.drawPoint r) = true ↔ Inside board.rows board.columns r := by
  have hx := uniformIntDistribution_mem hcolumns r.1
  have hy := uniformIntDistribution_mem hrows r.2
  rw [Board.isValidPoint,decide_eq_true_iff]
  simp only [Board.drawPoint,Board.colDist,Board.rowDist,Inside]
  omega

end Draws

/-- From `board` to `board'` the outcomes `drawn` are used, and the foods of `board'` can all be
reached if those of `board` can and no outcome is at an upper end. -/
structure Draws (rows columns : ℤ) (drawn : List (ℕ × ℕ)) (board board' : Board) : Prop where
  mt : board.mt = drawn++board'.mt
  reachable : board'.Reachable ↔ board.Reachable ∧ ∀ r ∈ drawn, Inside rows columns r

section Boards
variable {rows columns : ℤ} {eaten : ℕ} {drawn drawn' : List (ℕ × ℕ)} {board board' board'' : Board}

theorem Draws.refl (board : Board) : Draws rows columns [] board board :=
  ⟨rfl,by simp⟩

theorem Draws.trans (h : Draws rows columns drawn board board')
    (h' : Draws rows columns drawn' board' board'') :
    Draws rows columns (drawn++drawn') board board'' := by
  refine ⟨?_,?_⟩
  · rw [h.mt,h'.mt,List.append_assoc]
  · rw [h'.reachable,h.reachable,and_assoc,List.forall_mem_append]

/-- A new food. What is rejected lies on the snake or on a food, and so on the board if they do. -/
theorem draws_generateNewFood (hrows : 0 ≤ rows) (hcolumns : 0 ≤ columns)
    (hplaced : board.Placed rows columns eaten) (h : board.generateNewFood = some board') :
    ∃ drawn, Draws rows columns drawn board board' := by
  obtain ⟨rejected,r,rest,hmt,rfl,_,_,hrejected⟩ := Board.generateNewFood_eq_some h
  obtain ⟨rfl,rfl⟩ : board.rows = rows ∧ board.columns = columns := ⟨hplaced.rows,hplaced.columns⟩
  refine ⟨rejected++[r],by rw [hmt]; simp,?_⟩
  constructor
  · intro hreach
    have hfoods : board.Reachable := fun p hp => hreach p (List.mem_append_left _ hp)
    refine ⟨hfoods,?_⟩
    intro q hq
    rw [← isValidPoint_drawPoint hrows hcolumns]
    rcases List.mem_append.mp hq with hq | hq
    · rcases hrejected q hq with hon | hon
      · exact hplaced.valid _ hon
      · exact hfoods _ hon
    · rw [List.mem_singleton.mp hq]
      exact hreach _ (by simp)
  · rintro ⟨hfoods,hinside⟩ p hp
    rcases List.mem_append.mp hp with hp | hp
    · exact hfoods p hp
    · rw [List.mem_singleton.mp hp]
      exact (isValidPoint_drawPoint hrows hcolumns r).mpr (hinside r (by simp))

theorem draws_generateFoods {n : ℕ} (hrows : 0 ≤ rows) (hcolumns : 0 ≤ columns)
    (hplaced : board.Placed rows columns eaten) (h : Board.generateFoods n board = some board') :
    ∃ drawn, Draws rows columns drawn board board' := by
  induction n generalizing board with
  | zero =>
    cases h
    exact ⟨[],.refl _⟩
  | succ n ih =>
    obtain ⟨b,hb,h⟩ := Option.bind_eq_some_iff.mp h
    obtain ⟨drawn,hfirst⟩ := draws_generateNewFood hrows hcolumns hplaced hb
    obtain ⟨drawn',hrest⟩ := ih (hplaced.generateNewFood hb).1 h
    exact ⟨drawn++drawn',hfirst.trans hrest⟩

/-- The food that is eaten is on the board. -/
theorem draws_swallow {next : Point} (hvalid : board.isValidPoint next = true) :
    Draws rows columns [] board (board.swallow next) := by
  refine ⟨rfl,?_⟩
  simp only [List.not_mem_nil,false_imp_iff,implies_true,and_true]
  constructor
  · intro hreach p hp
    by_cases hpn : p = next
    · rw [hpn]
      exact hvalid
    · exact hreach p ((List.mem_erase_of_ne hpn).mpr hp)
  · intro hreach p hp
    exact hreach p (List.mem_of_mem_erase hp)

end Boards

section Games
variable {rows columns : ℤ} {past : List Bool} {game t : Game}

theorem draws_step {ch : ℤ} {ate : Bool} (hrows : 0 ≤ rows) (hcolumns : 0 ≤ columns)
    (h : game.Placed rows columns past) (hs : step game ch = some (t,ate)) :
    ∃ drawn, Draws rows columns drawn game.board t.board := by
  obtain ⟨_,_,hmove⟩ := step_eq_some hs
  obtain ⟨hvalid,hfree,hcases⟩ := Board.moveSnake_eq_true hmove
  rcases hcases with ⟨_,hfood⟩ | ⟨_,hboard⟩
  · have hplaced := h.1.swallow hvalid hfree (adjacent_nextPoint _ _)
    obtain ⟨drawn,hnew⟩ := draws_generateNewFood hrows hcolumns hplaced hfood
    exact ⟨[]++drawn,(draws_swallow hvalid).trans hnew⟩
  · rw [hboard]
    exact ⟨[],rfl,by simp [Board.Reachable,Board.isValidPoint]⟩

theorem draws_run {keys : List ℤ} {ate : List Bool} (hrows : 0 ≤ rows) (hcolumns : 0 ≤ columns)
    (h : game.Placed rows columns past) (hrun : Machine.run step game keys = some (t,ate)) :
    ∃ drawn, Draws rows columns drawn game.board t.board := by
  induction keys generalizing game past ate with
  | nil =>
    cases hrun
    exact ⟨[],.refl _⟩
  | cons ch keys ih =>
    obtain ⟨u,o,os,hs,hrest,_⟩ := Machine.run_cons_eq_some.mp hrun
    obtain ⟨drawn,hfirst⟩ := draws_step hrows hcolumns h hs
    obtain ⟨drawn',hlater⟩ := ih (h.step hs) hrest
    exact ⟨drawn++drawn',hfirst.trans hlater⟩

/-- A food that cannot be reached stays to the end. -/
theorem throughout_reachable_iff {keys : List ℤ} {ate : List Bool} (hrows : 0 ≤ rows)
    (hcolumns : 0 ≤ columns) (h : game.Placed rows columns past)
    (hrun : Machine.run step game keys = some (t,ate)) :
    Machine.Throughout step (fun game => game.board.Reachable) game keys ↔ t.board.Reachable := by
  constructor
  · intro hall
    exact hall keys (List.prefix_refl keys) t ate hrun
  · rintro hreach done ⟨rest,rfl⟩ u os hdone
    obtain ⟨v,os₁,os₂,hv,hrest,_⟩ := Machine.run_append.mp hrun
    cases hv.symm.trans hdone
    have hplaced := Machine.run_invariant (Game.Placed rows columns)
      (fun _ _ _ _ _ h hs => h.step hs) h hdone
    obtain ⟨drawn,hdraws⟩ := draws_run hrows hcolumns hplaced hrest
    exact (hdraws.reachable.mp hreach).1

theorem draws_start {mt : List (ℕ × ℕ)} (hrows : 4 ≤ rows) (hcolumns : 3 ≤ columns)
    (h : start rows columns mt = some game) :
    ∃ drawn, mt = drawn++game.board.mt ∧
      (game.board.Reachable ↔ ∀ r ∈ drawn, Inside rows columns r) := by
  obtain ⟨board,hboard,rfl⟩ := Option.map_eq_some_iff.mp h
  obtain ⟨drawn,hdraws⟩ := draws_generateFoods (by omega) (by omega)
    (placed_new hrows hcolumns mt) hboard
  refine ⟨drawn,hdraws.mt,?_⟩
  rw [hdraws.reachable]
  simp [Board.Reachable]

end Games

/-- In every game all foods can be reached at all times, exactly if no outcome of a distribution
that was used is the upper end of its interval. -/
theorem foods_reachable_iff (rows columns : ℤ) (drawn rest : List (ℕ × ℕ)) (new game : Game)
    (keys : List ℤ) (ate : List Bool) (hrows : 4 ≤ rows) (hcolumns : 3 ≤ columns)
    (hnew : start rows columns (drawn++rest) = some new)
    (hrun : Machine.run step new keys = some (game,ate)) (hrest : game.board.mt = rest) :
    Machine.Throughout step
        (fun game => ∀ p ∈ game.board.foods, game.board.isValidPoint p = true) new keys ↔
      ∀ r ∈ drawn, uniformIntDistribution 0 columns r.1 ≠ columns ∧
        uniformIntDistribution 0 rows r.2 ≠ rows := by
  have hplaced := placed_start hrows hcolumns hnew
  obtain ⟨drawn₁,hmt₁,hfirst⟩ := draws_start hrows hcolumns hnew
  obtain ⟨drawn₂,hlater⟩ := draws_run (by omega) (by omega) hplaced hrun
  have hdrawn : drawn = drawn₁++drawn₂ := by
    rw [hlater.mt,hrest,← List.append_assoc] at hmt₁
    exact List.append_cancel_right hmt₁
  have hall := throughout_reachable_iff (by omega) (by omega) hplaced hrun
  rw [hlater.reachable,hfirst,← List.forall_mem_append,← hdrawn] at hall
  exact hall

/-- All draws are below the upper ends. -/
theorem foods_reachable_iff_test : ∃ new game,
    start 24 80 ([(3,3),(0,0),(1,1),(2,2),(5,5),(6,6),(7,7),(8,8)]++[(80,0)]) = some new ∧
    Machine.run step new [-1,keyDown] = some (game,[true,false]) ∧
    (Machine.Throughout step
        (fun game => ∀ p ∈ game.board.foods, game.board.isValidPoint p = true) new [-1,keyDown] ↔
      ∀ r ∈ [(3,3),(0,0),(1,1),(2,2),(5,5),(6,6),(7,7),(8,8)],
        uniformIntDistribution 0 80 r.1 ≠ 80 ∧ uniformIntDistribution 0 24 r.2 ≠ 24) := by
  have hate : (start 24 80 ([(3,3),(0,0),(1,1),(2,2),(5,5),(6,6),(7,7),(8,8)]++[(80,0)])).bind
      (fun new => (Machine.run step new [-1,keyDown]).map fun r => (r.1.board.mt,r.2)) =
        some ([(80,0)],[true,false]) := by decide +kernel
  obtain ⟨new,hnew,hreplies⟩ := Option.bind_eq_some_iff.mp hate
  obtain ⟨⟨game,ate⟩,hrun,hr⟩ := Option.map_eq_some_iff.mp hreplies
  obtain ⟨hrest,rfl⟩ := Prod.mk.inj hr
  exact ⟨new,game,hnew,hrun,
    foods_reachable_iff 24 80 _ _ new game _ _ (by decide) (by decide) hnew hrun hrest⟩

/-- The first draw is in the column after the last one. -/
theorem food_off_board : ∃ new,
    start 24 80 [(80,3),(0,0),(1,1),(2,2),(5,5),(6,6),(7,7)] = some new ∧
    ⟨80,3⟩ ∈ new.board.foods ∧ new.board.isValidPoint ⟨80,3⟩ = false := by
  have hfood : (start 24 80 [(80,3),(0,0),(1,1),(2,2),(5,5),(6,6),(7,7)]).map
      (fun new => decide (⟨80,3⟩ ∈ new.board.foods) && !new.board.isValidPoint ⟨80,3⟩) =
        some true := by decide +kernel
  obtain ⟨new,hnew,hboth⟩ := Option.map_eq_some_iff.mp hfood
  rw [Bool.and_eq_true,decide_eq_true_eq,Bool.not_eq_true'] at hboth
  exact ⟨new,hnew,hboth⟩

end CStudy.SnakeGame
