import CStudy.SnakeGame.Steering

/-! The game as a player sees it. A snake that never gives up its tail leaves a trail that depends on
the keys alone. The snake of the game is the newest part of it, two points and one more for each food,
and what `Display` shows and where the game ends are told from that part. -/
namespace CStudy.SnakeGame
open CStudy.Foundation

/-- The direction and all points the head has been at, the newest first. -/
structure Walk where
  action : Action
  trail : Snake

namespace Walk

def start : Walk := ⟨.right,initSnakePosition⟩

def next (w : Walk) (ch : ℤ) : Point := w.trail.nextPoint (readNextAction w.action ch)

def turn (w : Walk) (ch : ℤ) : Walk := ⟨readNextAction w.action ch,w.trail.prepend (w.next ch)⟩

/-- The walk after the keys. -/
def along (keys : List ℤ) : Walk := keys.foldl turn start

/-- Where a snake is that has eaten `eaten` foods. -/
def body (w : Walk) (eaten : ℕ) : List Point := w.trail.points.take (2+eaten)

end Walk

/-- `ACS_BLOCK` and `ACS_DIAMOND` -/
inductive Glyph
  | block
  | diamond
  deriving DecidableEq

/-- What stands in each place of the screen. -/
abbrev Screen := Point → Option Glyph

/-- `mvaddch(p.y, p.x, ..)` on a screen of the size of the board, which does nothing off the screen. -/
def Board.mvaddch (board : Board) (glyph : Glyph) (screen : Screen) (p : Point) : Screen :=
  if board.isValidPoint p then Function.update screen p (some glyph) else screen

/-- `Display` after `clear()`. -/
def Board.display (board : Board) : Screen :=
  board.foods.foldl (board.mvaddch .diamond)
    (board.snake.points.foldl (board.mvaddch .block) fun _ => none)

section Display
variable {board : Board}

theorem foldl_mvaddch (glyph : Glyph) (ps : List Point) (screen : Screen) (p : Point) :
    ps.foldl (board.mvaddch glyph) screen p =
      if p ∈ ps ∧ board.isValidPoint p = true then some glyph else screen p := by
  induction ps generalizing screen with
  | nil => simp
  | cons q ps ih =>
    rw [List.foldl_cons,ih]
    by_cases hp : p ∈ ps ∧ board.isValidPoint p = true
    · rw [if_pos hp,if_pos ⟨List.mem_cons_of_mem q hp.1,hp.2⟩]
    · rw [if_neg hp,Board.mvaddch]
      by_cases hpq : p = q
      · subst hpq
        by_cases hvalid : board.isValidPoint p = true <;> simp [hvalid]
      · have hnot : ¬ (p ∈ q::ps ∧ board.isValidPoint p = true) := by simpa [hpq] using hp
        rw [if_neg hnot]
        split_ifs
        · exact Function.update_of_ne hpq _ _
        · rfl

theorem display_eq (p : Point) : board.display p =
    if p ∈ board.foods ∧ board.isValidPoint p = true then some .diamond
    else if p ∈ board.snake.points ∧ board.isValidPoint p = true then some .block else none := by
  rw [Board.display,foldl_mvaddch,foldl_mvaddch]

end Display

/-- The snake of the game is where the walk says. -/
structure Follows (eaten : ℕ) (w : Walk) (game : Game) : Prop where
  action : game.action = w.action
  points : game.board.snake.points = w.body eaten
  long : 2+eaten ≤ w.trail.points.length

namespace Follows
variable {eaten : ℕ} {w : Walk} {game t : Game} {ch : ℤ} {ate : Bool}

theorem nextPoint (h : Follows eaten w game) (ch : ℤ) :
    game.board.snake.nextPoint (readNextAction game.action ch) = w.next ch := by
  have hfront : game.board.snake.front = w.trail.front := by
    have hhead : game.board.snake.points.head? = w.trail.points.head? := by
      rw [h.points,Walk.body,List.head?_take,if_neg (by omega)]
    rw [List.head?_eq_some_head game.board.snake.nonempty,
      List.head?_eq_some_head w.trail.nonempty] at hhead
    exact Option.some.inj hhead
  rw [Walk.next,nextPoint_eq_toward,nextPoint_eq_toward,hfront,h.action]

theorem step (h : Follows eaten w game) (hs : SnakeGame.step game ch = some (t,ate)) :
    Follows (eaten+(if ate then 1 else 0)) (w.turn ch) t := by
  obtain ⟨haction,hate,hmove⟩ := step_eq_some hs
  obtain ⟨_,_,hcases⟩ := Board.moveSnake_eq_true hmove
  rw [haction,h.nextPoint] at hcases
  have hlong := h.long
  have hlength : (w.turn ch).trail.points.length = w.trail.points.length+1 := rfl
  rcases hcases with ⟨heats,hfood⟩ | ⟨heats,hboard⟩
  · obtain ⟨_,_,_,_,hboard,_⟩ := Board.generateNewFood_eq_some hfood
    rw [hate,haction,heats]
    refine ⟨by rw [haction,h.action]; rfl,?_,by simp only [if_true]; omega⟩
    have hpoints : t.board.snake.points = w.next ch::game.board.snake.points := by rw [hboard]; rfl
    rw [hpoints,h.points]
    rfl
  · rw [hate,haction,heats]
    refine ⟨by rw [haction,h.action]; rfl,?_,by simp only [Bool.false_eq_true,if_false]; omega⟩
    have hpoints : t.board.snake.points = (w.next ch::game.board.snake.points).dropLast := by
      rw [hboard]
      rfl
    -- the point that falls off is the oldest one of the part
    have htake : w.next ch::w.trail.points.take (2+eaten) =
        (w.next ch::w.trail.points).take (2+eaten+1) := rfl
    have hmin : min (min (2+eaten+1) (w.trail.points.length+1)-1) (2+eaten+1) = 2+eaten := by omega
    rw [hpoints,h.points,Walk.body,htake,List.dropLast_eq_take,List.take_take,List.length_take,
      List.length_cons,hmin]
    rfl

end Follows

theorem follows_run {rows columns : ℤ} {mt : List (ℕ × ℕ)} {new game : Game} {keys : List ℤ}
    {ate : List Bool} (hnew : start rows columns mt = some new)
    (hrun : Machine.run step new keys = some (game,ate)) :
    Follows (ate.count true) (Walk.along keys) game := by
  obtain ⟨hsnake,haction⟩ := start_eq_some hnew
  have hstart : Follows 0 Walk.start new := ⟨haction,by rw [hsnake]; rfl,le_rfl⟩
  clear hnew hsnake haction
  rw [← Nat.zero_add (ate.count true)]
  unfold Walk.along
  generalize Walk.start = w at hstart ⊢
  generalize 0 = eaten at hstart ⊢
  induction keys generalizing new w eaten ate with
  | nil =>
    cases hrun
    exact hstart
  | cons ch keys ih =>
    obtain ⟨t,o,os,hs,hrest,rfl⟩ := Machine.run_cons_eq_some.mp hrun
    have hfollows := ih hrest _ _ (hstart.step hs)
    have hcount : eaten+(o::os).count true = eaten+(if o then 1 else 0)+os.count true := by
      cases o <;> simp [Nat.add_comm,Nat.add_left_comm]
    rwa [List.foldl_cons,hcount]

/-- After any keys and any outcomes of the distributions the snake is the newest part of the trail
that the keys draw. The next key ends the game exactly if it leads off the board or into that part,
its last point included, and the screen shows that part and the foods on the board. -/
theorem game_shows_trail (rows columns : ℤ) (mt : List (ℕ × ℕ)) (new game : Game) (keys : List ℤ)
    (ate : List Bool) (hrows : 4 ≤ rows) (hcolumns : 3 ≤ columns)
    (hnew : start rows columns mt = some new)
    (hrun : Machine.run step new keys = some (game,ate)) :
    game.board.snake.points = (Walk.along keys).body (ate.count true) ∧
      (∀ ch, (∃ board, game.board.moveSnake (readNextAction game.action ch) = some (false,board)) ↔
        ¬ game.board.isValidPoint ((Walk.along keys).next ch) = true ∨
          (Walk.along keys).next ch ∈ (Walk.along keys).body (ate.count true)) ∧
      ∀ p, (game.board.display p = some .block ↔ p ∈ (Walk.along keys).body (ate.count true)) ∧
        (game.board.display p = some .diamond ↔
          p ∈ game.board.foods ∧ game.board.isValidPoint p = true) := by
  have hfollows := follows_run hnew hrun
  obtain ⟨hplaced,_⟩ := placed_run hrows hcolumns hnew hrun
  refine ⟨hfollows.points,fun ch => ?_,fun p => ?_⟩
  · rw [← hfollows.points]
    simp only [Board.moveSnake,hfollows.nextPoint]
    split_ifs with hvalid hhit hfood <;> simp_all
  · rw [← hfollows.points,display_eq]
    have hvalid := hplaced.valid p
    have hapart := hplaced.apart p
    by_cases hfood : p ∈ game.board.foods ∧ game.board.isValidPoint p = true
    · simp [hfood,hapart hfood.1]
    · rw [if_neg hfood]
      by_cases hsnake : p ∈ game.board.snake.points
      · simpa [hsnake,hvalid hsnake] using fun h : p ∈ game.board.foods => hapart h hsnake
      · simp [hsnake,hfood]

/-- The snake eats the food before it and turns down: it is the newest three points of the trail. -/
theorem game_shows_trail_test : ∃ new game,
    start 10 10 [(3,3),(0,0),(1,1),(2,2),(5,5),(6,6),(7,7),(8,8)] = some new ∧
    Machine.run step new [-1,keyDown] = some (game,[true,false]) ∧
    game.board.snake.points = [⟨3,4⟩,⟨3,3⟩,⟨2,3⟩] ∧
    ∀ p, game.board.display p = some .block ↔ p ∈ [(⟨3,4⟩ : Point),⟨3,3⟩,⟨2,3⟩] := by
  have hate : (start 10 10 [(3,3),(0,0),(1,1),(2,2),(5,5),(6,6),(7,7),(8,8)]).bind
      (fun new => Machine.replies step new [-1,keyDown]) = some [true,false] := by decide +kernel
  obtain ⟨new,hnew,hreplies⟩ := Option.bind_eq_some_iff.mp hate
  obtain ⟨⟨game,ate⟩,hrun,rfl⟩ := Option.map_eq_some_iff.mp hreplies
  have hbody : (Walk.along [-1,keyDown]).body ([true,false].count true) =
      [⟨3,4⟩,⟨3,3⟩,⟨2,3⟩] := by decide
  obtain ⟨hpoints,_,hdisplay⟩ :=
    game_shows_trail 10 10 _ new game _ _ (by decide) (by decide) hnew hrun
  rw [hbody] at hpoints hdisplay
  exact ⟨new,game,hnew,hrun,hpoints,fun p => (hdisplay p).1⟩

end CStudy.SnakeGame
