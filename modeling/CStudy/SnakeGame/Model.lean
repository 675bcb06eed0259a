import CStudy.Foundation.Machine

/-! The snake game. The board takes the outcomes of its random distributions from a list, and is
undefined when the list runs out before a food is found. The coordinates are unbounded integers:
the game only computes points that are at most one step off the board. -/
namespace CStudy.SnakeGame
open CStudy.Foundation

inductive Action
  | left
  | right
  | up
  | down
  deriving DecidableEq

structure Point where
  x : ℤ
  y : ℤ
  deriving DecidableEq

/-- The points from head to tail, of which there is always one. -/
structure Snake where
  points : List Point
  nonempty : points ≠ []

namespace Snake

def contains (snake : Snake) (p : Point) : Bool := decide (p ∈ snake.points)

/-- `points_.front()` -/
def front (snake : Snake) : Point := snake.points.head snake.nonempty

def nextPoint (snake : Snake) (action : Action) : Point :=
  let p := snake.front
  match action with
  | .left => { p with x := p.x-1 }
  | .right => { p with x := p.x+1 }
  | .up => { p with y := p.y-1 }
  | .down => { p with y := p.y+1 }

def isColliding (snake : Snake) (point : Point) : Bool := decide (point ∈ snake.points)

def prepend (snake : Snake) (next : Point) : Snake := ⟨next::snake.points,List.cons_ne_nil _ _⟩

/-- `push_front` followed by `pop_back` -/
def move (snake : Snake) (next : Point) : Snake :=
  ⟨(next::snake.points).dropLast,by
    rw [List.dropLast_cons_of_ne_nil snake.nonempty]
    exact List.cons_ne_nil _ _⟩

end Snake

/-- `std::uniform_int_distribution<int>(a, b)`, where the generator gives `r`: every integer of the
closed interval is the value for some `r`. -/
def uniformIntDistribution (a b : ℤ) (r : ℕ) : ℤ := a+r%(b-a+1)

/-- `mt` holds what the generator will give, for a column and a row at a time. -/
structure Board where
  snake : Snake
  foods : List Point
  rows : ℤ
  columns : ℤ
  mt : List (ℕ × ℕ)

namespace Board

def rowDist (board : Board) (r : ℕ) : ℤ := uniformIntDistribution 0 board.rows r

def colDist (board : Board) (r : ℕ) : ℤ := uniformIntDistribution 0 board.columns r

def containsInFoods (board : Board) (p : Point) : Bool := decide (p ∈ board.foods)

def isValidPoint (board : Board) (p : Point) : Bool :=
  decide (p.x ≥ 0 ∧ p.x < board.columns ∧ p.y ≥ 0 ∧ p.y < board.rows)

/-- `Point{col_dist_(mt_), row_dist_(mt_)}` -/
def drawPoint (board : Board) (r : ℕ × ℕ) : Point := ⟨board.colDist r.1,board.rowDist r.2⟩

/-- The loop of `GenerateNewFood`: the accepted point, and what the generator gives after it. -/
def drawFood (board : Board) : List (ℕ × ℕ) → Option (Point × List (ℕ × ℕ))
  | [] => none
  | r::mt =>
    let p := board.drawPoint r
    if !board.snake.contains p && !board.containsInFoods p then some (p,mt) else drawFood board mt

def generateNewFood (board : Board) : Option Board :=
  (board.drawFood board.mt).map fun r => { board with foods := board.foods++[r.1], mt := r.2 }

/-- `for (int i = 0; i < init_foods; ++i)` -/
def generateFoods : ℕ → Board → Option Board
  | 0,board => some board
  | n+1,board => board.generateNewFood.bind (generateFoods n)

def create (snake : Snake) (rows columns : ℤ) (initFoods : ℕ) (mt : List (ℕ × ℕ)) : Option Board :=
  generateFoods initFoods ⟨snake,[],rows,columns,mt⟩

/-- The value of `MoveSnake`, and the board after it. -/
def moveSnake (board : Board) (action : Action) : Option (Bool × Board) :=
  let next := board.snake.nextPoint action
  if !board.isValidPoint next then some (false,board)
  else if board.snake.isColliding next then some (false,board)
  else if next ∈ board.foods then
    ({ board with
        snake := board.snake.prepend next
        foods := board.foods.erase next }.generateNewFood).map fun board => (true,board)
  else some (true,{ board with snake := board.snake.move next })

end Board

def keyDown : ℤ := 258
def keyUp : ℤ := 259
def keyLeft : ℤ := 260
def keyRight : ℤ := 261

/-- `ch` is what `getch` gives, a key or any other value. -/
def readNextAction (prev : Action) (ch : ℤ) : Action :=
  if ch = keyLeft then if prev ≠ .right then .left else prev
  else if ch = keyRight then if prev ≠ .left then .right else prev
  else if ch = keyUp then if prev ≠ .down then .up else prev
  else if ch = keyDown then if prev ≠ .up then .down else prev
  else prev

def foodCount : ℕ := 6

def initSnakePosition : Snake := ⟨[⟨2,3⟩,⟨2,2⟩],List.cons_ne_nil _ _⟩

/-- The variables of `main`. -/
structure Game where
  board : Board
  action : Action

/-- `main` up to its loop. -/
def start (maxY maxX : ℤ) (mt : List (ℕ × ℕ)) : Option Game :=
  (Board.create initSnakePosition maxY maxX foodCount mt).map fun board => ⟨board,.right⟩

/-- The move takes the snake to a food. -/
def Board.eats (board : Board) (action : Action) : Bool :=
  decide (board.snake.nextPoint action ∈ board.foods)

/-- One pass of the loop that does not end it. The reply says whether a food is eaten. -/
def step : Machine Game ℤ Bool := fun game ch =>
  let action := readNextAction game.action ch
  match game.board.moveSnake action with
  | some (true,board) => some (⟨board,action⟩,game.board.eats action)
  | _ => none

section Cases
variable {board board' : Board} {game t : Game} {ch : ℤ} {ate : Bool}

@[simp] theorem isColliding_iff {snake : Snake} {p : Point} :
    snake.isColliding p = true ↔ p ∈ snake.points := decide_eq_true_iff

/-- The draws up to the first point that is neither on the snake nor in the foods. -/
theorem Board.drawFood_eq_some {mt rest : List (ℕ × ℕ)} {p : Point}
    (h : board.drawFood mt = some (p,rest)) :
    ∃ rejected r, mt = rejected++r::rest ∧ p = board.drawPoint r ∧ p ∉ board.snake.points ∧
      p ∉ board.foods ∧
      ∀ q ∈ rejected, board.drawPoint q ∈ board.snake.points ∨ board.drawPoint q ∈ board.foods := by
  induction mt with
  | nil => cases h
  | cons r mt ih =>
    simp only [drawFood,Snake.contains,containsInFoods,Bool.and_eq_true,Bool.not_eq_true',
      decide_eq_false_iff_not] at h
    split_ifs at h with hfree
    · cases h
      exact ⟨[],r,rfl,rfl,hfree.1,hfree.2,by simp⟩
    · obtain ⟨rejected,q,hmt,hp,hsnake,hfoods,hrejected⟩ := ih h
      refine ⟨r::rejected,q,by rw [hmt]; rfl,hp,hsnake,hfoods,?_⟩
      intro q hq
      rcases List.mem_cons.mp hq with hq | hq
      · subst hq
        by_contra hno
        exact hfree (not_or.mp hno)
      · exact hrejected q hq

theorem Board.generateNewFood_eq_some (h : board.generateNewFood = some board') :
    ∃ rejected r rest, board.mt = rejected++r::rest ∧
      board' = { board with foods := board.foods++[board.drawPoint r], mt := rest } ∧
      board.drawPoint r ∉ board.snake.points ∧ board.drawPoint r ∉ board.foods ∧
      ∀ q ∈ rejected, board.drawPoint q ∈ board.snake.points ∨ board.drawPoint q ∈ board.foods := by
  obtain ⟨⟨p,rest⟩,hdraw,hb⟩ := Option.map_eq_some_iff.mp h
  obtain ⟨rejected,r,hmt,hp,hsnake,hfoods,hrejected⟩ := drawFood_eq_some hdraw
  subst hp
  exact ⟨rejected,r,rest,hmt,hb.symm,hsnake,hfoods,hrejected⟩

/-- The board after the snake has taken a food, before there is a new one. -/
def Board.swallow (board : Board) (next : Point) : Board :=
  { board with snake := board.snake.prepend next, foods := board.foods.erase next }

theorem Board.moveSnake_eq_true {action : Action} (h : board.moveSnake action = some (true,board')) :
    board.isValidPoint (board.snake.nextPoint action) = true ∧
      board.snake.nextPoint action ∉ board.snake.points ∧
      ((board.eats action = true ∧
          (board.swallow (board.snake.nextPoint action)).generateNewFood = some board') ∨
        (board.eats action = false ∧
          board' = { board with snake := board.snake.move (board.snake.nextPoint action) })) := by
  simp only [moveSnake] at h
  split_ifs at h with hvalid hhit hfood
  · cases h
  · cases h
  · obtain ⟨b,hb,he⟩ := Option.map_eq_some_iff.mp h
    cases he
    exact ⟨by simpa using hvalid,by simpa using hhit,.inl ⟨decide_eq_true hfood,hb⟩⟩
  · cases h
    exact ⟨by simpa using hvalid,by simpa using hhit,.inr ⟨decide_eq_false hfood,rfl⟩⟩

theorem step_eq_some (h : step game ch = some (t,ate)) :
    t.action = readNextAction game.action ch ∧ ate = game.board.eats t.action ∧
      game.board.moveSnake t.action = some (true,t.board) := by
  simp only [step] at h
  split at h
  · next board hmove =>
    cases h
    exact ⟨rfl,rfl,hmove⟩
  · cases h

end Cases

end CStudy.SnakeGame
