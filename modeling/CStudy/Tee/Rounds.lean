import CStudy.Tee.Model

/-! Whether both outputs of `tee01` are the input. A round duplicates bytes and then consumes the
same ones; when `splice` fails in it, what is left in the pipe is duplicated a second time in the
next round. -/
namespace CStudy.Tee
open CStudy.Foundation

/-- How many bytes have been duplicated and not yet moved. -/
def Position.pending : Position → ℕ
  | .splicing len => len
  | _ => 0

@[simp] theorem Position.pending_teeing : Position.teeing.pending = 0 := rfl
@[simp] theorem Position.pending_splicing (len : ℕ) : (Position.splicing len).pending = len := rfl

@[simp] theorem Position.pending_inner (len : ℕ) : (Position.inner len).pending = len := by
  unfold Position.inner
  split_ifs with hpos
  · rfl
  · change 0 = len
    omega

/-- What holds whatever the calls answer. -/
structure Tidy (input : List UInt8) (s : State) : Prop where
  consumed : s.file++s.stdin = input
  pending_le : s.position.pending ≤ s.stdin.length
  pending_pos : ∀ len, s.position = .splicing len → 0 < len
  ended : s.position = .exited 0 → s.stdin = []

/-- The bytes on `stdout` are those of the file and the ones that are still to be moved there. -/
def InStep (s : State) : Prop := s.stdout = s.file++s.stdin.take s.position.pending

/-- There are more bytes on `stdout` than that. -/
def Ahead (s : State) : Prop := s.file.length+s.position.pending < s.stdout.length

section Changes
variable {input : List UInt8} {s t : State} {answer : Answer}

theorem main_fst (argv : List String) (opened : Bool) (input : List UInt8) :
    ∃ position, (main argv opened input).1 = ⟨input,[],[],position⟩ ∧
      (position = .teeing ∨ position = .exited 1) := by
  unfold main
  split_ifs
  · exact ⟨_,rfl,.inr rfl⟩
  · exact ⟨_,rfl,.inl rfl⟩
  · exact ⟨_,rfl,.inr rfl⟩

theorem tidy_main (argv : List String) (opened : Bool) (input : List UInt8) :
    Tidy input (main argv opened input).1 ∧ InStep (main argv opened input).1 := by
  obtain ⟨position,hmain,rfl | rfl⟩ := main_fst argv opened input
  · rw [hmain]
    exact ⟨⟨rfl,Nat.zero_le _,by rintro len ⟨⟩,by rintro ⟨⟩⟩,rfl⟩
  · rw [hmain]
    exact ⟨⟨rfl,Nat.zero_le _,by rintro len ⟨⟩,by rintro ⟨⟩⟩,rfl⟩

theorem Position.inner_eq_splicing {len n : ℕ} (h : Position.inner n = .splicing len) : 0 < len := by
  unfold Position.inner at h
  split_ifs at h with hpos
  cases h
  exact hpos

theorem Position.inner_ne_exited (n status : ℕ) : Position.inner n ≠ .exited status := by
  unfold Position.inner
  split_ifs <;> rintro ⟨⟩

theorem Tidy.change (h : Tidy input s) (hc : Change s answer t) : Tidy input t := by
  cases hc with
  | @tee count hpos hle =>
    refine ⟨h.consumed,?_,fun _ => Position.inner_eq_splicing,fun he => ?_⟩
    · rw [State.tee,Position.pending_inner]
      exact hle
    · exact absurd he (Position.inner_ne_exited _ _)
  | again => exact h
  | failed hpos => exact ⟨h.consumed,Nat.zero_le _,by rintro len ⟨⟩,by rintro ⟨⟩⟩
  | ended hpos hstdin => exact ⟨h.consumed,Nat.zero_le _,by rintro len ⟨⟩,fun _ => hstdin⟩
  | @splice len count hpos hle hstdin =>
    have hpending := h.pending_le
    rw [hpos] at hpending
    refine ⟨?_,?_,fun _ => Position.inner_eq_splicing,fun he => ?_⟩
    · rw [State.splice,List.append_assoc,List.take_append_drop]
      exact h.consumed
    · simp only [State.splice,Position.pending_inner,List.length_drop]
      exact Nat.sub_le_sub_right hpending count
    · exact absurd he (Position.inner_ne_exited _ _)
  | spliceFailed hpos => exact ⟨h.consumed,Nat.zero_le _,by rintro len ⟨⟩,by rintro ⟨⟩⟩

/-- A round in which no `splice` fails consumes what it has duplicated. -/
theorem InStep.change (h : InStep s) (hc : Change s answer t) (hne : answer ≠ .spliceFailed) :
    InStep t := by
  unfold InStep at h ⊢
  cases hc with
  | @tee count hpos hle =>
    rw [hpos,Position.pending_teeing,List.take_zero,List.append_nil] at h
    rw [State.tee,Position.pending_inner,h]
  | again => exact h
  | failed hpos =>
    rw [hpos] at h
    exact h
  | ended hpos hstdin =>
    rw [hpos] at h
    exact h
  | @splice len count hpos hle hstdin =>
    rw [hpos,Position.pending_splicing] at h
    rw [State.splice,Position.pending_inner,List.append_assoc,← List.take_add,
      Nat.add_sub_of_le hle]
    exact h
  | spliceFailed hpos => exact absurd rfl hne

/-- The bytes that are still in the pipe when `splice` fails are on `stdout` already. -/
theorem InStep.ahead (h : InStep s) (htidy : Tidy input s) (hc : Change s .spliceFailed t) :
    Ahead t := by
  cases hc with
  | @spliceFailed len hpos =>
    have hlen := htidy.pending_pos len hpos
    have hpending := htidy.pending_le
    rw [hpos,Position.pending_splicing] at hpending
    rw [InStep,hpos,Position.pending_splicing] at h
    simp only [Ahead,State.move,h,Position.pending_teeing,List.length_append,List.length_take]
    omega

theorem Ahead.change (h : Ahead s) (hc : Change s answer t) : Ahead t := by
  unfold Ahead at h ⊢
  cases hc with
  | @tee count hpos hle =>
    rw [hpos,Position.pending_teeing] at h
    simp only [State.tee,Position.pending_inner,List.length_append,List.length_take]
    omega
  | again => exact h
  | failed hpos =>
    rw [hpos] at h
    exact h
  | ended hpos hstdin =>
    rw [hpos] at h
    exact h
  | @splice len count hpos hle hstdin =>
    rw [hpos,Position.pending_splicing] at h
    simp only [State.splice,Position.pending_inner,List.length_append,List.length_take]
    omega
  | spliceFailed hpos => exact lt_of_le_of_lt (Nat.add_le_add_left (Nat.zero_le _) _) h

/-- At the end both outputs are the input, exactly if `stdout` has not got ahead. -/
theorem Tidy.outputs (h : Tidy input s) (hexit : s.position = .exited 0) :
    s.file = input ∧ (InStep s → s.stdout = input) ∧ (Ahead s → s.stdout ≠ input) := by
  have hfile : s.file = input := by simpa [h.ended hexit] using h.consumed
  refine ⟨hfile,?_,?_⟩
  · intro hstep
    rw [hstep,h.ended hexit,List.take_nil,List.append_nil,hfile]
  · rintro hahead rfl
    rw [Ahead,hfile] at hahead
    omega

/-- Up to the first failure of `splice` the outputs are in step, and never again after it. -/
theorem run_cases {argv : List String} {opened : Bool} {answers : List Answer}
    {messages : List (List String)}
    (hrun : Machine.run step (main argv opened input).1 answers = some (s,messages)) :
    ((∀ answer ∈ answers, answer ≠ .spliceFailed) ∧ Tidy input s ∧ InStep s) ∨
      ((¬ ∀ answer ∈ answers, answer ≠ .spliceFailed) ∧ Tidy input s ∧ Ahead s) := by
  refine Machine.run_good_or_bad (· ≠ .spliceFailed) (fun t => Tidy input t ∧ InStep t)
    (fun t => Tidy input t ∧ Ahead t) ?_ ?_ ?_ (tidy_main argv opened input) hrun
  · rintro s answer t messages ⟨htidy,hstep⟩ hne h
    have hc := change_of_step h
    exact ⟨htidy.change hc,hstep.change hc hne⟩
  · rintro s answer t messages ⟨htidy,hstep⟩ hfailed h
    obtain rfl := not_not.mp hfailed
    have hc := change_of_step h
    exact ⟨htidy.change hc,hstep.ahead htidy hc⟩
  · rintro s answer t messages ⟨htidy,hahead⟩ h
    have hc := change_of_step h
    exact ⟨htidy.change hc,hahead.change hc⟩

end Changes

/-- In every run of the program that ends with status 0: both outputs are the input exactly if no
call of `splice` has failed. -/
theorem outputs_eq_input_iff (argv : List String) (opened : Bool) (input : List UInt8)
    (answers : List Answer) (s : State) (messages : List (List String))
    (hrun : Machine.run step (main argv opened input).1 answers = some (s,messages))
    (hexit : s.position = .exited 0) :
    (s.stdout = input ∧ s.file = input) ↔ ∀ answer ∈ answers, answer ≠ .spliceFailed := by
  obtain ⟨hall,htidy,hstep⟩ | ⟨hnot,htidy,hahead⟩ := run_cases hrun
  · obtain ⟨hfile,hstdout,_⟩ := htidy.outputs hexit
    exact iff_of_true ⟨hstdout hstep,hfile⟩ hall
  · obtain ⟨_,_,hstdout⟩ := htidy.outputs hexit
    exact iff_of_false (fun h => hstdout hahead h.1) hnot

/-- Two rounds, the second one with two calls of `splice`. -/
def twoRounds : List Answer := [.teed 1,.spliced 1,.teeAgain,.teed 2,.spliced 1,.spliced 1,.teeEnded]

def copied : State := ⟨[],[97,98,99],[97,98,99],.exited 0⟩

theorem outputs_eq_input_iff_test :
    (copied.stdout = [97,98,99] ∧ copied.file = [97,98,99]) ↔
      ∀ answer ∈ twoRounds, answer ≠ .spliceFailed :=
  outputs_eq_input_iff ["tee01","out"] true [97,98,99] twoRounds copied [[],[],[],[],[],[],[]] rfl rfl

/-- Of two bytes that have been duplicated one is moved before `splice` fails. The other one is
duplicated again. -/
def failedSplice : List Answer :=
  [.teed 2,.spliced 1,.spliceFailed,.teed 1,.spliced 1,.teeEnded]

theorem failed_splice_duplicates :
    Machine.run step (main ["tee01","out"] true [97,98]).1 failedSplice =
      some (⟨[],[97,98,98],[97,98],.exited 0⟩,[[],[],["splice"],[],[],[]]) := rfl

end CStudy.Tee
