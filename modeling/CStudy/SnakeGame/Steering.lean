import CStudy.SnakeGame.Placement

/-! The keys. `ReadNextAction` refuses to reverse the last action, and after a move the snake
stretches from its neck in the direction of that action. At the start it does not: the snake points
down and the action is `kRight`. -/
namespace CStudy.SnakeGame
open CStudy.Foundation

/-- The next point in the direction of the action. -/
def Point.toward (p : Point) : Action → Point
  | .left => { p with x := p.x-1 }
  | .right => { p with x := p.x+1 }
  | .up => { p with y := p.y-1 }
  | .down => { p with y := p.y+1 }

def Action.opposite : Action → Action
  | .left => .right
  | .right => .left
  | .up => .down
  | .down => .up

theorem nextPoint_eq_toward (snake : Snake) (action : Action) :
    snake.nextPoint action = snake.front.toward action := by
  cases action <;> rfl

/-- Two steps lead back only in opposite directions. -/
theorem toward_toward_eq_iff (p : Point) (a b : Action) :
    (p.toward a).toward b = p ↔ b = a.opposite := by
  obtain ⟨x,y⟩ := p
  cases a <;> cases b <;> simp [Point.toward,Action.opposite] <;> omega

theorem readNextAction_ne_opposite (prev : Action) (ch : ℤ) :
    readNextAction prev ch ≠ prev.opposite := by
  unfold readNextAction
  cases prev <;> simp only [Action.opposite] <;> split_ifs <;> simp_all

/-- The second segment. -/
def Snake.neck? (snake : Snake) : Option Point := snake.points[1]?

/-- After a move the neck is the old head. -/
theorem neck?_step {game t : Game} {ch : ℤ} {ate : Bool} (hlen : 2 ≤ game.board.snake.points.length)
    (hs : step game ch = some (t,ate)) :
    t.board.snake.neck? = some game.board.snake.front ∧
      t.board.snake.front = game.board.snake.front.toward t.action := by
  obtain ⟨_,_,hmove⟩ := step_eq_some hs
  obtain ⟨_,_,hcases⟩ := Board.moveSnake_eq_true hmove
  have hhead : game.board.snake.points[0]? = some game.board.snake.front :=
    (List.head?_eq_getElem? ..).symm.trans (List.head?_eq_some_head game.board.snake.nonempty)
  rw [← nextPoint_eq_toward]
  rcases hcases with ⟨_,hfood⟩ | ⟨_,hboard⟩
  · obtain ⟨_,_,_,_,hboard,_⟩ := Board.generateNewFood_eq_some hfood
    rw [hboard]
    exact ⟨hhead,rfl⟩
  · rw [hboard]
    refine ⟨?_,?_⟩
    · rw [Snake.neck?,Snake.points_move,List.getElem?_cons_succ,List.getElem?_dropLast,if_pos]
      · exact hhead
      · omega
    · simp [Snake.front,Snake.points_move]

theorem snake_generateFoods {n : ℕ} {board board' : Board}
    (h : Board.generateFoods n board = some board') : board'.snake = board.snake := by
  induction n generalizing board with
  | zero =>
    cases h
    rfl
  | succ n ih =>
    obtain ⟨b,hfood,hb⟩ := Option.bind_eq_some_iff.mp h
    obtain ⟨_,_,_,_,hboard,_⟩ := Board.generateNewFood_eq_some hfood
    rw [ih hb,hboard]

theorem start_eq_some {rows columns : ℤ} {mt : List (ℕ × ℕ)} {new : Game}
    (h : start rows columns mt = some new) :
    new.board.snake = initSnakePosition ∧ new.action = .right := by
  obtain ⟨board,hboard,rfl⟩ := Option.map_eq_some_iff.mp h
  exact ⟨snake_generateFoods hboard,rfl⟩

theorem readNextAction_right_eq_up_iff (ch : ℤ) : readNextAction .right ch = .up ↔ ch = keyUp := by
  unfold readNextAction
  split_ifs <;> simp_all [keyUp,keyLeft,keyRight]

/-- The key does not make the snake run into its neck. -/
def Game.keepsOn (game : Game) (ch : ℤ) : Prop :=
  game.board.snake.neck? ≠ some (game.board.snake.nextPoint (readNextAction game.action ch))

theorem keepsOn_start {rows columns : ℤ} {mt : List (ℕ × ℕ)} {new : Game}
    (h : start rows columns mt = some new) (ch : ℤ) : new.keepsOn ch ↔ ch ≠ keyUp := by
  obtain ⟨hsnake,haction⟩ := start_eq_some h
  have hneck : initSnakePosition.neck? = some (initSnakePosition.front.toward .up) := rfl
  rw [Game.keepsOn,hsnake,haction,nextPoint_eq_toward,hneck,ne_eq,ne_eq,Option.some.injEq,
    ← readNextAction_right_eq_up_iff]
  cases readNextAction .right ch <;> decide

/-- After a move the action is the direction of the snake. -/
theorem keepsOn_step {game t : Game} {key : ℤ} {ate : Bool}
    (hlen : 2 ≤ game.board.snake.points.length) (hs : step game key = some (t,ate)) (ch : ℤ) :
    t.keepsOn ch := by
  obtain ⟨hneck,hfront⟩ := neck?_step hlen hs
  rw [Game.keepsOn,hneck,nextPoint_eq_toward,hfront]
  intro heq
  have hback := (toward_toward_eq_iff _ _ _).mp (Option.some.inj heq).symm
  exact readNextAction_ne_opposite _ ch hback

/-- In every state that is reached, a key makes the snake run into its neck exactly if it is the
first one and goes up. -/
theorem never_reverses_iff (rows columns : ℤ) (mt : List (ℕ × ℕ)) (new game : Game)
    (keys : List ℤ) (ate : List Bool) (ch : ℤ) (hrows : 4 ≤ rows) (hcolumns : 3 ≤ columns)
    (hnew : start rows columns mt = some new)
    (hrun : Machine.run step new keys = some (game,ate)) :
    game.board.snake.neck? ≠ some (game.board.snake.nextPoint (readNextAction game.action ch)) ↔
      ¬ (keys = [] ∧ ch = keyUp) := by
  change game.keepsOn ch ↔ _
  rcases List.eq_nil_or_concat keys with rfl | ⟨before,last,rfl⟩
  · cases hrun
    rw [keepsOn_start hnew]
    simp
  · rw [List.concat_eq_append] at hrun
    obtain ⟨u,ate₁,ate₂,hbefore,hlast,_⟩ := Machine.run_append.mp hrun
    obtain ⟨t,o,os,hs,hnil,_⟩ := Machine.run_cons_eq_some.mp hlast
    cases hnil
    have hlen := (placed_run hrows hcolumns hnew hbefore).1.length
    have hkeeps := keepsOn_step (by omega) hs ch
    have hlater : ¬ (before.concat last = [] ∧ ch = keyUp) := by simp
    exact iff_of_true hkeeps hlater

/-- The snake goes down, and `KEY_UP` is ignored. -/
theorem never_reverses_iff_test : ∃ new game,
    start 24 80 [(9,9),(0,0),(1,1),(2,2),(5,5),(6,6),(7,7)] = some new ∧
    Machine.run step new [keyDown] = some (game,[false]) ∧
    (game.board.snake.neck? ≠
        some (game.board.snake.nextPoint (readNextAction game.action keyUp)) ↔
      ¬ ([keyDown] = [] ∧ keyUp = keyUp)) := by
  have hate : (start 24 80 [(9,9),(0,0),(1,1),(2,2),(5,5),(6,6),(7,7)]).bind
      (fun new => Machine.replies step new [keyDown]) = some [false] := by decide +kernel
  obtain ⟨new,hnew,hreplies⟩ := Option.bind_eq_some_iff.mp hate
  obtain ⟨⟨game,ate⟩,hrun,rfl⟩ := Option.map_eq_some_iff.mp hreplies
  exact ⟨new,game,hnew,hrun,
    never_reverses_iff 24 80 _ new game _ _ keyUp (by decide) (by decide) hnew hrun⟩

/-- The first key is `KEY_UP`. -/
theorem runs_into_neck : ∃ new,
    start 24 80 [(9,9),(0,0),(1,1),(2,2),(5,5),(6,6),(7,7)] = some new ∧
    new.board.snake.neck? = some (new.board.snake.nextPoint (readNextAction new.action keyUp)) := by
  have hsome : (start 24 80 [(9,9),(0,0),(1,1),(2,2),(5,5),(6,6),(7,7)]).isSome = true := by
    decide +kernel
  obtain ⟨new,hnew⟩ := Option.isSome_iff_exists.mp hsome
  obtain ⟨hsnake,haction⟩ := start_eq_some hnew
  refine ⟨new,hnew,?_⟩
  rw [hsnake,haction]
  decide

end CStudy.SnakeGame
