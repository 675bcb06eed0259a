import CStudy.SnakeGame.Model

/-! Where the snake and the foods are, through a whole game: the snake is a path on the board that
does not meet itself, it is longer than at the start by the foods it has eaten, and the foods lie
apart from it and from one another. -/
namespace CStudy.SnakeGame
open CStudy.Foundation

/-- The points differ by one unit in one coordinate. -/
def Adjacent (p q : Point) : Prop :=
  (p.x = q.x ∧ |p.y-q.y| = 1) ∨ (p.y = q.y ∧ |p.x-q.x| = 1)

/-- The snake has eaten `eaten` foods on a board of this size. -/
structure Board.Placed (rows columns : ℤ) (eaten : ℕ) (board : Board) : Prop where
  rows : board.rows = rows
  columns : board.columns = columns
  valid : ∀ p ∈ board.snake.points, board.isValidPoint p = true
  nodup : board.snake.points.Nodup
  connected : board.snake.points.IsChain Adjacent
  apart : ∀ p ∈ board.foods, p ∉ board.snake.points
  foods_nodup : board.foods.Nodup
  length : board.snake.points.length = 2+eaten

theorem adjacent_nextPoint (snake : Snake) (action : Action) :
    Adjacent (snake.nextPoint action) snake.front := by
  cases action <;> simp [Adjacent,Snake.nextPoint]

theorem Snake.points_move (snake : Snake) (next : Point) :
    (snake.move next).points = next::snake.points.dropLast :=
  List.dropLast_cons_of_ne_nil snake.nonempty

theorem Snake.length_move (snake : Snake) (next : Point) :
    (snake.move next).points.length = snake.points.length := by
  simp [Snake.move]

theorem Snake.isChain_prepend {snake : Snake} {next : Point} (h : snake.points.IsChain Adjacent)
    (hnext : Adjacent next snake.front) : (next::snake.points).IsChain Adjacent := by
  rw [List.isChain_cons]
  refine ⟨?_,h⟩
  intro p hp
  rw [List.head?_eq_some_head snake.nonempty] at hp
  cases Option.some.inj hp
  exact hnext

namespace Board.Placed
variable {rows columns : ℤ} {eaten : ℕ} {board board' : Board}

/-- A new food is apart from the snake and the other foods. -/
theorem generateNewFood (h : board.Placed rows columns eaten)
    (hb : board.generateNewFood = some board') :
    board'.Placed rows columns eaten ∧ board'.foods.length = board.foods.length+1 := by
  obtain ⟨rejected,r,rest,_,rfl,hsnake,hfoods,_⟩ := Board.generateNewFood_eq_some hb
  refine ⟨⟨h.rows,h.columns,h.valid,h.nodup,h.connected,?_,?_,h.length⟩,?_⟩
  · intro p hp
    rcases List.mem_append.mp hp with hp | hp
    · exact h.apart p hp
    · rw [List.mem_singleton.mp hp]
      exact hsnake
  · have hnodup := h.foods_nodup.concat hfoods
    rwa [List.concat_eq_append] at hnodup
  · exact List.length_append

theorem generateFoods {n : ℕ} (h : board.Placed rows columns eaten)
    (hb : Board.generateFoods n board = some board') :
    board'.Placed rows columns eaten ∧ board'.foods.length = board.foods.length+n := by
  induction n generalizing board with
  | zero =>
    cases hb
    exact ⟨h,rfl⟩
  | succ n ih =>
    obtain ⟨b,hfood,hb⟩ := Option.bind_eq_some_iff.mp hb
    obtain ⟨hplaced,hlen⟩ := h.generateNewFood hfood
    obtain ⟨hplaced',hlen'⟩ := ih hplaced hb
    exact ⟨hplaced',by omega⟩

/-- The snake grows onto a food. -/
theorem swallow {next : Point} (h : board.Placed rows columns eaten)
    (hvalid : board.isValidPoint next = true) (hfree : next ∉ board.snake.points)
    (hnext : Adjacent next board.snake.front) :
    (board.swallow next).Placed rows columns (eaten+1) := by
  refine ⟨h.rows,h.columns,?_,List.nodup_cons.mpr ⟨hfree,h.nodup⟩,
    Snake.isChain_prepend h.connected hnext,?_,h.foods_nodup.erase next,?_⟩
  · intro p hp
    rcases List.mem_cons.mp hp with hp | hp
    · rw [hp]
      exact hvalid
    · exact h.valid p hp
  · intro p hp hmem
    obtain ⟨hne,hfood⟩ := h.foods_nodup.mem_erase_iff.mp hp
    rcases List.mem_cons.mp hmem with heq | hmem
    · exact hne heq
    · exact h.apart p hfood hmem
  · have hlen := h.length
    change board.snake.points.length+1 = 2+(eaten+1)
    omega

/-- The snake moves on to a point without food. -/
theorem move {next : Point} (h : board.Placed rows columns eaten)
    (hvalid : board.isValidPoint next = true) (hfree : next ∉ board.snake.points)
    (hnext : Adjacent next board.snake.front) (hfood : next ∉ board.foods) :
    { board with snake := board.snake.move next }.Placed rows columns eaten := by
  -- the moved snake is the grown one without its last point
  have hfront : (board.snake.move next).points.Sublist (next::board.snake.points) :=
    List.dropLast_sublist _
  refine ⟨h.rows,h.columns,?_,?_,?_,?_,h.foods_nodup,?_⟩
  · intro p hp
    rcases List.mem_cons.mp (hfront.subset hp) with hp | hp
    · rw [hp]
      exact hvalid
    · exact h.valid p hp
  · exact (List.nodup_cons.mpr ⟨hfree,h.nodup⟩).sublist hfront
  · exact (Snake.isChain_prepend h.connected hnext).dropLast
  · intro p hp hmem
    rcases List.mem_cons.mp (hfront.subset hmem) with heq | hmem
    · exact hfood (heq ▸ hp)
    · exact h.apart p hp hmem
  · exact (Snake.length_move board.snake next).trans h.length

end Board.Placed

/-- What holds between the passes of the loop, `ate` being the replies so far. -/
def Game.Placed (rows columns : ℤ) (ate : List Bool) (game : Game) : Prop :=
  game.board.Placed rows columns (ate.count true) ∧ game.board.foods.length = foodCount

theorem board_step {rows columns : ℤ} {eaten : ℕ} {game t : Game} {ch : ℤ} {ate : Bool}
    (h : game.board.Placed rows columns eaten) (hs : step game ch = some (t,ate)) :
    t.board.Placed rows columns (eaten+(if ate then 1 else 0)) ∧
      t.board.foods.length = game.board.foods.length := by
  obtain ⟨_,hate,hmove⟩ := step_eq_some hs
  obtain ⟨hvalid,hfree,hcases⟩ := Board.moveSnake_eq_true hmove
  have hnext := adjacent_nextPoint game.board.snake t.action
  rcases hcases with ⟨heats,hfood⟩ | ⟨heats,hboard⟩
  · obtain ⟨hplaced,hlen⟩ := (h.swallow hvalid hfree hnext).generateNewFood hfood
    rw [hate,heats]
    refine ⟨hplaced,?_⟩
    have hmem := of_decide_eq_true heats
    have herase := List.length_erase_of_mem hmem
    have hpos := List.length_pos_of_mem hmem
    change t.board.foods.length = (game.board.foods.erase _).length+1 at hlen
    omega
  · rw [hate,heats,hboard]
    exact ⟨h.move hvalid hfree hnext (of_decide_eq_false heats),rfl⟩

theorem Game.Placed.step {rows columns : ℤ} {past : List Bool} {game t : Game} {ch : ℤ} {ate : Bool}
    (h : game.Placed rows columns past) (hs : SnakeGame.step game ch = some (t,ate)) :
    t.Placed rows columns (past++[ate]) := by
  obtain ⟨hplaced,hlen⟩ := board_step h.1 hs
  refine ⟨?_,hlen.trans h.2⟩
  rw [List.count_append,List.count_singleton]
  cases ate <;> exact hplaced

/-- The board before it has foods. -/
theorem placed_new {rows columns : ℤ} (hrows : 4 ≤ rows) (hcolumns : 3 ≤ columns)
    (mt : List (ℕ × ℕ)) : (Board.mk initSnakePosition [] rows columns mt).Placed rows columns 0 := by
  refine ⟨rfl,rfl,?_,by simp [initSnakePosition],?_,by simp,List.nodup_nil,rfl⟩
  · intro p hp
    simp only [initSnakePosition,List.mem_cons,List.not_mem_nil,or_false] at hp
    rcases hp with rfl | rfl <;> simp [Board.isValidPoint] <;> omega
  · simp [initSnakePosition,Adjacent]

theorem placed_start {rows columns : ℤ} {mt : List (ℕ × ℕ)} {game : Game} (hrows : 4 ≤ rows)
    (hcolumns : 3 ≤ columns) (h : start rows columns mt = some game) :
    game.Placed rows columns [] := by
  obtain ⟨board,hboard,rfl⟩ := Option.map_eq_some_iff.mp h
  obtain ⟨hplaced,hlen⟩ := (placed_new hrows hcolumns mt).generateFoods hboard
  exact ⟨hplaced,by simpa using hlen⟩

theorem placed_run {rows columns : ℤ} {mt : List (ℕ × ℕ)} {new game : Game} {keys : List ℤ}
    {ate : List Bool} (hrows : 4 ≤ rows) (hcolumns : 3 ≤ columns)
    (hnew : start rows columns mt = some new)
    (hrun : Machine.run step new keys = some (game,ate)) : game.Placed rows columns ate :=
  Machine.run_invariant (Game.Placed rows columns) (fun _ _ _ _ _ h hs => h.step hs)
    (placed_start hrows hcolumns hnew) hrun

/-- The state of the game after any keys and any outcomes of the distributions. -/
theorem game_placed (rows columns : ℤ) (mt : List (ℕ × ℕ)) (new game : Game) (keys : List ℤ)
    (ate : List Bool) (hrows : 4 ≤ rows) (hcolumns : 3 ≤ columns)
    (hnew : start rows columns mt = some new)
    (hrun : Machine.run step new keys = some (game,ate)) :
    game.board.rows = rows ∧ game.board.columns = columns ∧
      (∀ p ∈ game.board.snake.points, game.board.isValidPoint p = true) ∧
      game.board.snake.points.Nodup ∧ game.board.snake.points.IsChain Adjacent ∧
      game.board.foods.length = foodCount ∧ game.board.foods.Nodup ∧
      (∀ p ∈ game.board.foods, p ∉ game.board.snake.points) ∧
      game.board.snake.points.length = 2+ate.count true := by
  obtain ⟨h,hlen⟩ := placed_run hrows hcolumns hnew hrun
  exact ⟨h.rows,h.columns,h.valid,h.nodup,h.connected,hlen,h.foods_nodup,h.apart,h.length⟩

/-- The snake eats the food before it and turns down. -/
theorem game_placed_test : ∃ new game,
    start 10 10 [(3,3),(0,0),(1,1),(2,2),(5,5),(6,6),(7,7),(8,8)] = some new ∧
    Machine.run step new [-1,keyDown] = some (game,[true,false]) ∧
    game.board.snake.points.IsChain Adjacent ∧ game.board.foods.length = foodCount ∧
    game.board.snake.points.length = 3 := by
  have hate : (start 10 10 [(3,3),(0,0),(1,1),(2,2),(5,5),(6,6),(7,7),(8,8)]).bind
      (fun new => Machine.replies step new [-1,keyDown]) = some [true,false] := by decide +kernel
  obtain ⟨new,hnew,hreplies⟩ := Option.bind_eq_some_iff.mp hate
  obtain ⟨⟨game,ate⟩,hrun,rfl⟩ := Option.map_eq_some_iff.mp hreplies
  obtain ⟨_,_,_,_,hconnected,hfoods,_,_,hlength⟩ :=
    game_placed 10 10 _ new game _ _ (by decide) (by decide) hnew hrun
  exact ⟨new,game,hnew,hrun,hconnected,hfoods,hlength⟩

end CStudy.SnakeGame
