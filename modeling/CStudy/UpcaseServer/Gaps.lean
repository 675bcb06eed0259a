import CStudy.UpcaseServer.Model

/-! Whether the client gets back what it has sent, without a gap. A send that accepts only a part of
the buffer leaves the rest out for good, and a handler whose send has failed goes on with the next
chunk. What is accepted after that has a gap before it. -/
namespace CStudy.UpcaseServer
open CStudy.Foundation

/-- What has been accepted is the beginning of what has been received, in upper case. -/
def Gapless (s : Connection) : Prop := s.accepted <+: s.received.map toupper

/-- The server is about to send, and bytes from before its buffer have not been accepted. -/
def Behind (s : Connection) : Prop :=
  ∃ buffer, s.position = .sending buffer ∧ s.accepted.length+buffer.length < s.received.length

/-- No byte is accepted by a send of a server that is behind. -/
def InTime (s : Connection) (answer : Answer) : Prop := ∀ count, answer = .sent count → ¬ Behind s

/-- Also what is in the buffer is known. -/
structure Sound (s : Connection) : Prop where
  gapless : Gapless s
  pending : ∀ buffer, s.position = .sending buffer → ∃ before chunk, s.received = before++chunk ∧
    buffer = chunk.map toupper ∧ s.accepted <+: before.map toupper

section Runs
variable {s t : Connection} {answer : Answer}

theorem sound_start : Sound start where
  gapless := List.nil_prefix
  pending := by rintro buffer ⟨⟩

/-- A server that is not behind has nothing left out before its buffer. -/
theorem Sound.accepted_eq {before chunk : List UInt8} (hreceived : s.received = before++chunk)
    (haccepted : s.accepted <+: before.map toupper)
    (hpos : s.position = .sending (chunk.map toupper)) (hbehind : ¬ Behind s) :
    s.accepted = before.map toupper := by
  refine haccepted.eq_of_length_le ?_
  by_contra hlt
  refine hbehind ⟨_,hpos,?_⟩
  rw [hreceived]
  simp only [List.length_append,List.length_map] at hlt ⊢
  omega

theorem Sound.change (h : Sound s) (hc : Change s answer t) (htime : InTime s answer) : Sound t := by
  cases hc with
  | @receive chunk hpos =>
    refine ⟨?_,?_⟩
    · refine h.gapless.trans ?_
      simp only [Connection.receive,List.map_append]
      exact List.prefix_append _ _
    · rintro buffer ⟨⟩
      exact ⟨s.received,chunk,rfl,rfl,h.gapless⟩
  | @send buffer count hpos =>
    obtain ⟨before,chunk,hreceived,rfl,haccepted⟩ := h.pending buffer hpos
    have heq := Sound.accepted_eq hreceived haccepted hpos (htime count rfl)
    refine ⟨?_,?_⟩
    · simp only [Gapless,Connection.send,hreceived,heq,List.map_append]
      exact (List.prefix_append_right_inj _).mpr (List.take_prefix _ _)
    · rintro buffer ⟨⟩
  | move hidle =>
    refine ⟨h.gapless,?_⟩
    intro buffer hpos
    exact absurd hpos (hidle buffer)

end Runs

/-- Of both servers: in every run in which no byte is accepted by a send while bytes from before are
missing, there is no gap at any moment. -/
theorem gapless_throughout (answers : List Answer) :
    (Machine.EachCall handler.step InTime start answers →
        Machine.Throughout handler.step Gapless start answers) ∧
      (Machine.EachCall child.step InTime start answers →
        Machine.Throughout child.step Gapless start answers) := by
  have hrun : ∀ server : Server, Machine.EachCall server.step InTime start answers →
      Machine.Throughout server.step Gapless start answers := by
    intro server hcalls
    refine Machine.throughout_of_eachCall Sound (fun s h => h.gapless) ?_ sound_start hcalls
    intro s answer t messages hs htime hstep
    exact hs.change (change_of_step hstep) htime
  exact ⟨hrun handler,hrun child⟩

/-- A send that leaves a byte behind is the last one. -/
def lastShort : List Answer :=
  [.received [97,98],.sent 2,.received [99,100],.sent 1,.received [101],.sendFailed]

/-- A test of `InTime`. -/
def testInTime (s : Connection) : Answer → Bool
  | .sent _ =>
    match s.position with
    | .sending buffer => decide (s.received.length ≤ s.accepted.length+buffer.length)
    | _ => true
  | _ => true

theorem inTime_of_test (s : Connection) (answer : Answer) (h : testInTime s answer = true) :
    InTime s answer := by
  rintro count rfl ⟨buffer,hpos,hlt⟩
  simp only [testInTime,hpos,decide_eq_true_eq] at h
  omega

theorem gapless_throughout_test : Machine.Throughout handler.step Gapless start lastShort ∧
    Machine.Throughout child.step Gapless start lastShort :=
  ⟨(gapless_throughout lastShort).1 (Machine.eachCall_of_test inTime_of_test (by decide)),
    (gapless_throughout lastShort).2 (Machine.eachCall_of_test inTime_of_test (by decide))⟩

/-- Of the first two bytes only one is accepted, and the loop goes on with the third. -/
def shortSend : List Answer := [.received [97,98],.sent 1,.received [99],.sent 1]

/-- The client gets `"AC"` for `"abc"`, from both servers. -/
theorem short_send_leaves_gap :
    ¬ Machine.Throughout handler.step Gapless start shortSend ∧
      ¬ Machine.Throughout child.step Gapless start shortSend := by
  have hgap : ¬ Gapless ⟨[97,98,99],[65,67],.receiving⟩ := by
    unfold Gapless
    decide
  constructor
  · intro h
    exact hgap (h shortSend List.prefix_rfl _ [[],[],[],[]] rfl)
  · intro h
    exact hgap (h shortSend List.prefix_rfl _ [[],[],[],[]] rfl)

end CStudy.UpcaseServer
