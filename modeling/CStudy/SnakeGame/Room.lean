import CStudy.SnakeGame.Foods
import Mathlib.Data.Int.Interval

/-! Room for a new food. The closed intervals of the distributions add a row and a column to the
board. The snake never gets there, however long it is, and there are more points in them than there
are foods when a new one is drawn. -/
namespace CStudy.SnakeGame
open CStudy.Foundation

/-- The points in the range of the distributions that are not on the board. -/
noncomputable def edge (rows columns : ℤ) : Finset Point :=
  (Finset.Icc 0 rows).image (fun y => ⟨columns,y⟩) ∪ (Finset.Ico 0 columns).image fun x => ⟨x,rows⟩

theorem mem_edge {rows columns : ℤ} {p : Point} : p ∈ edge rows columns ↔
    (p.x = columns ∧ 0 ≤ p.y ∧ p.y ≤ rows) ∨ (p.y = rows ∧ 0 ≤ p.x ∧ p.x < columns) := by
  simp only [edge,Finset.mem_union,Finset.mem_image,Finset.mem_Icc,Finset.mem_Ico]
  constructor
  · rintro (⟨y,hy,rfl⟩ | ⟨x,hx,rfl⟩)
    · exact .inl ⟨rfl,hy⟩
    · exact .inr ⟨rfl,hx⟩
  · rintro (⟨rfl,hy⟩ | ⟨rfl,hx⟩)
    · exact .inl ⟨p.y,hy,rfl⟩
    · exact .inr ⟨p.x,hx,rfl⟩

theorem card_edge {rows columns : ℤ} (hrows : 0 ≤ rows) (hcolumns : 0 ≤ columns) :
    ((edge rows columns).card : ℤ) = rows+columns+1 := by
  have hdisjoint : Disjoint ((Finset.Icc 0 rows).image fun y => (⟨columns,y⟩ : Point))
      ((Finset.Ico 0 columns).image fun x => ⟨x,rows⟩) := by
    rw [Finset.disjoint_left]
    intro p hcolumn hrow
    obtain ⟨y,_,rfl⟩ := Finset.mem_image.mp hcolumn
    obtain ⟨x,hx,heq⟩ := Finset.mem_image.mp hrow
    have hxc : x = columns := congrArg Point.x heq
    have hlt := (Finset.mem_Ico.mp hx).2
    omega
  have hcolumn : Function.Injective fun y => (⟨columns,y⟩ : Point) := fun _ _ h => congrArg Point.y h
  have hrow : Function.Injective fun x => (⟨x,rows⟩ : Point) := fun _ _ h => congrArg Point.x h
  rw [edge,Finset.card_union_of_disjoint hdisjoint,Finset.card_image_of_injective _ hcolumn,
    Finset.card_image_of_injective _ hrow,Int.card_Icc,Int.card_Ico]
  omega

/-- `GenerateNewFood` is entered with this board: by the constructor when it has made `n` foods, or
by `MoveSnake` when the snake has taken one. -/
inductive Entered (rows columns : ℤ) : Board → Prop
  | construction {mt : List (ℕ × ℕ)} {n : ℕ} {board : Board} (more : n < foodCount)
      (made : Board.generateFoods n ⟨initSnakePosition,[],rows,columns,mt⟩ = some board) :
      Entered rows columns board
  | eaten {mt : List (ℕ × ℕ)} {new game : Game} {keys : List ℤ} {ate : List Bool} {next : Point}
      (ch : ℤ) (begun : start rows columns mt = some new)
      (played : Machine.run step new keys = some (game,ate))
      (ahead : next = game.board.snake.nextPoint (readNextAction game.action ch))
      (valid : game.board.isValidPoint next = true)
      (free : game.board.snake.isColliding next = false) (food : next ∈ game.board.foods) :
      Entered rows columns (game.board.swallow next)

/-- There is always a food less than the game has. -/
theorem Entered.placed {rows columns : ℤ} {board : Board} (hrows : 4 ≤ rows) (hcolumns : 3 ≤ columns)
    (h : Entered rows columns board) :
    (∃ eaten, board.Placed rows columns eaten) ∧ board.foods.length < foodCount := by
  cases h with
  | @construction mt n _ more made =>
    obtain ⟨hplaced,hlen⟩ := (placed_new hrows hcolumns mt).generateFoods made
    refine ⟨⟨0,hplaced⟩,?_⟩
    rw [hlen,List.length_nil]
    omega
  | @eaten mt new game keys ate next ch begun played ahead valid free food =>
    obtain ⟨hplaced,hlen⟩ := placed_run hrows hcolumns begun played
    have hnotMem : next ∉ game.board.snake.points := by
      rw [← isColliding_iff,free]
      exact Bool.false_ne_true
    have hnext : Adjacent next game.board.snake.front := by
      rw [ahead]
      exact adjacent_nextPoint _ _
    refine ⟨⟨_,hplaced.swallow valid hnotMem hnext⟩,?_⟩
    have herase := List.length_erase_of_mem food
    have hpos := List.length_pos_of_mem food
    change (game.board.foods.erase next).length < foodCount
    omega

/-- A point of the edge is not on the snake, and there are too many of them for the foods. -/
theorem Board.Placed.exists_free {rows columns : ℤ} {eaten : ℕ} {board : Board} (hrows : 0 ≤ rows)
    (hcolumns : 0 ≤ columns) (h : board.Placed rows columns eaten)
    (hfoods : board.foods.length < rows+columns+1) :
    ∃ p, 0 ≤ p.x ∧ p.x ≤ columns ∧ 0 ≤ p.y ∧ p.y ≤ rows ∧ p ∉ board.snake.points ∧
      p ∉ board.foods := by
  have hcard : board.foods.toFinset.card < (edge rows columns).card := by
    have hle := board.foods.toFinset_card_le
    have hedge := card_edge hrows hcolumns
    omega
  obtain ⟨p,hp,hfree⟩ := Finset.exists_mem_notMem_of_card_lt_card hcard
  rw [mem_edge] at hp
  refine ⟨p,by omega,by omega,by omega,by omega,?_,by simpa using hfree⟩
  intro hsnake
  have hvalid := h.valid p hsnake
  rw [Board.isValidPoint,decide_eq_true_iff,h.rows,h.columns] at hvalid
  omega

/-- Whenever a new food is drawn, some outcome of the distributions is accepted. -/
theorem exists_acceptable_draw (rows columns : ℤ) (board : Board) (hrows : 4 ≤ rows)
    (hcolumns : 3 ≤ columns) (h : Entered rows columns board) :
    ∃ p, 0 ≤ p.x ∧ p.x ≤ columns ∧ 0 ≤ p.y ∧ p.y ≤ rows ∧ p ∉ board.snake.points ∧
      p ∉ board.foods ∧ ∃ r, board.drawPoint r = p := by
  obtain ⟨⟨eaten,hplaced⟩,hlen⟩ := h.placed hrows hcolumns
  have hfoods : board.foods.length < rows+columns+1 := by
    rw [foodCount] at hlen
    omega
  obtain ⟨p,hx,hx',hy,hy',hsnake,hfree⟩ := hplaced.exists_free (by omega) (by omega) hfoods
  obtain ⟨c,hc⟩ := exists_uniformIntDistribution_eq hx hx'
  obtain ⟨r,hr⟩ := exists_uniformIntDistribution_eq hy hy'
  refine ⟨p,hx,hx',hy,hy',hsnake,hfree,(c,r),?_⟩
  rw [Board.drawPoint,Board.colDist,Board.rowDist,hplaced.columns,hplaced.rows,hc,hr]

/-- The snake takes a food with its first move. -/
theorem exists_acceptable_draw_test : ∃ new,
    start 5 4 [(3,3),(0,0),(1,0),(2,0),(0,1),(2,1)] = some new ∧
    Entered 5 4 (new.board.swallow ⟨3,3⟩) ∧
    ∃ p, 0 ≤ p.x ∧ p.x ≤ 4 ∧ 0 ≤ p.y ∧ p.y ≤ 5 ∧ p ∉ (new.board.swallow ⟨3,3⟩).snake.points ∧
      p ∉ (new.board.swallow ⟨3,3⟩).foods ∧ ∃ r, (new.board.swallow ⟨3,3⟩).drawPoint r = p := by
  have hfood : (start 5 4 [(3,3),(0,0),(1,0),(2,0),(0,1),(2,1)]).map (fun new =>
      decide (⟨3,3⟩ = new.board.snake.nextPoint (readNextAction new.action (-1)) ∧
        new.board.isValidPoint ⟨3,3⟩ = true ∧ new.board.snake.isColliding ⟨3,3⟩ = false ∧
        ⟨3,3⟩ ∈ new.board.foods)) = some true := by decide +kernel
  obtain ⟨new,hnew,hall⟩ := Option.map_eq_some_iff.mp hfood
  obtain ⟨hahead,hvalid,hfree,hmem⟩ := of_decide_eq_true hall
  have hentered := Entered.eaten (-1) hnew Machine.run_nil hahead hvalid hfree hmem
  exact ⟨new,hnew,hentered,exists_acceptable_draw 5 4 _ (by decide) (by decide) hentered⟩

end CStudy.SnakeGame
