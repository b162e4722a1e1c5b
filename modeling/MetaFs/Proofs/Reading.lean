import Mathlib
import MetaFs.Server
import MetaFs.Proofs.Wire
/-! What the server reads from a stream of bytes. Reading looks at the front only, so that bytes
that arrive later change nothing of what was found before them. -/

namespace MetaFs

namespace Frame

open Wire

theorem receive_eq_frame {input body rest : List UInt8} :
    receive input = .frame body rest ↔
      body.length + 4 ≤ limit ∧ input = littleEndian 4 (body.length + 4) ++ body ++ rest := by
  constructor
  · intro h
    simp only [receive] at h
    split_ifs at h with h1 h2 h3 h4
    obtain ⟨rfl, rfl⟩ := Received.frame.inj h
    -- Neither part was cut short, so that the two and the rest make up the input.
    have hlen : (input.take 4).length = 4 := by
      have := List.length_take_le 4 input
      omega
    have hbody : ((input.drop 4).take (value (input.take 4) - 4)).length + 4 =
        value (input.take 4) := by
      have := List.length_take_le (value (input.take 4) - 4) (input.drop 4)
      omega
    refine ⟨by omega, ?_⟩
    have hhead : littleEndian 4 (value (input.take 4)) = input.take 4 := by
      have := littleEndian_value (input.take 4)
      rwa [hlen] at this
    rw [hbody, hhead, List.append_assoc, List.take_append_drop, List.take_append_drop]
  · rintro ⟨hl, rfl⟩
    have hn : body.length + 4 < 256 ^ 4 := Nat.lt_of_le_of_lt hl (by decide)
    have htake : (littleEndian 4 (body.length + 4) ++ body ++ rest).take 4 =
        littleEndian 4 (body.length + 4) := by
      rw [List.append_assoc]
      exact List.take_left' (length_littleEndian 4 _)
    have hdrop : (littleEndian 4 (body.length + 4) ++ body ++ rest).drop 4 = body ++ rest := by
      rw [List.append_assoc]
      exact List.drop_left' (length_littleEndian 4 _)
    simp only [receive, htake, hdrop, length_littleEndian, value_littleEndian hn,
      Nat.add_sub_cancel, List.take_left, List.drop_left]
    rw [if_neg (by omega), if_neg (by omega), if_neg (by omega), if_neg (by omega)]

theorem receive_append_of_frame {input body rest : List UInt8} (more : List UInt8)
    (h : receive input = .frame body rest) :
    receive (input ++ more) = .frame body (rest ++ more) := by
  obtain ⟨hl, rfl⟩ := receive_eq_frame.mp h
  exact receive_eq_frame.mpr ⟨hl, List.append_assoc _ _ _⟩

theorem receive_append_of_bad {input : List UInt8} {e : FrameError} (more : List UInt8)
    (h : receive input = .bad e) : receive (input ++ more) = .bad e := by
  simp only [receive] at h
  split_ifs at h with h1 h2 h3 h4 <;> cases h
  all_goals
    have hlen : 4 ≤ input.length := by
      have := List.length_take (l := input) (i := 4)
      omega
    simp only [receive, List.take_append_of_le_length hlen]
    rw [if_neg h1]
  · rw [if_pos h2]
  · rw [if_neg h2, if_pos h3]

end Frame

namespace Server

theorem next_eq_message {input rest : List UInt8} {m : Message} :
    next input = .message m rest ↔ ∃ body extra, Frame.receive input = .frame body rest ∧
      Wire.decode body = .ok (m, extra) := by
  unfold next
  constructor
  · intro h
    split at h
    · rename_i body rest' hr
      split at h
      · rename_i m' extra hd
        obtain ⟨rfl, rfl⟩ := Reading.message.inj h
        exact ⟨body, extra, hr, hd⟩
      · cases h
    · cases h
    · cases h
  · rintro ⟨body, extra, hr, hd⟩
    simp only [hr, hd]

theorem next_append_of_message {input rest : List UInt8} {m : Message} (more : List UInt8)
    (h : next input = .message m rest) : next (input ++ more) = .message m (rest ++ more) := by
  obtain ⟨body, extra, hr, hd⟩ := next_eq_message.mp h
  exact next_eq_message.mpr ⟨body, extra, Frame.receive_append_of_frame more hr, hd⟩

theorem next_append_of_refused {input : List UInt8} (more : List UInt8)
    (h : next input = .refused) : next (input ++ more) = .refused := by
  unfold next at h ⊢
  split at h
  · rename_i body rest hr
    split at h
    · cases h
    · rename_i e hd
      simp only [Frame.receive_append_of_frame more hr, hd]
  · cases h
  · rename_i e hr
    simp only [Frame.receive_append_of_bad more hr]

theorem readAll_of_message {input rest : List UInt8} {m : Message}
    (h : next input = .message m rest) :
    readAll input = (m :: (readAll rest).1, (readAll rest).2) := by
  rw [readAll]
  split
  · rename_i m' rest' h'
    obtain ⟨rfl, rfl⟩ := Reading.message.inj (h'.symm.trans h)
    rfl
  · rename_i h'
    cases h'.symm.trans h
  · rename_i h'
    cases h'.symm.trans h

theorem readAll_of_incomplete {input : List UInt8} (h : next input = .incomplete) :
    readAll input = ([], ⟨input, false⟩) := by
  rw [readAll]
  split <;> rename_i h' <;> first | rfl | cases h'.symm.trans h

theorem readAll_of_refused {input : List UInt8} (h : next input = .refused) :
    readAll input = ([], ⟨input, true⟩) := by
  rw [readAll]
  split <;> rename_i h' <;> first | rfl | cases h'.symm.trans h

/-- The messages that a stream of bytes holds up to the first that is refused or incomplete. -/
def messages (input : List UInt8) : List Message := (readAll input).1

theorem messages_of_message {input rest : List UInt8} {m : Message}
    (h : next input = .message m rest) : messages input = m :: messages rest := by
  rw [messages, readAll_of_message h, messages]

theorem messages_of_incomplete {input : List UInt8} (h : next input = .incomplete) :
    messages input = [] := by
  rw [messages, readAll_of_incomplete h]

theorem messages_of_refused {input : List UInt8} (h : next input = .refused) :
    messages input = [] := by
  rw [messages, readAll_of_refused h]

/-- The input is whole frames that hold these messages, and then something else. -/
inductive Delivers : List UInt8 → List Message → Prop where
  | nil {input : List UInt8} : Delivers input []
  | cons {body extra rest : List UInt8} {m : Message} {ms : List Message}
      (fits : body.length + 4 ≤ Frame.limit) (decodes : Wire.decode body = .ok (m, extra))
      (others : Delivers rest ms) :
      Delivers (Wire.littleEndian 4 (body.length + 4) ++ body ++ rest) (m :: ms)

theorem delivers_messages (input : List UInt8) : Delivers input (messages input) := by
  cases h : next input with
  | message m rest =>
    have hlt := length_lt_of_next h
    obtain ⟨body, extra, hr, hd⟩ := next_eq_message.mp h
    rw [messages_of_message h]
    obtain ⟨hl, rfl⟩ := Frame.receive_eq_frame.mp hr
    exact .cons hl hd (delivers_messages rest)
  | incomplete =>
    rw [messages_of_incomplete h]
    exact .nil
  | refused =>
    rw [messages_of_refused h]
    exact .nil
termination_by input.length

/-- No longer sequence of whole frames with messages is at the front of the input. -/
theorem prefix_messages_of_delivers {input : List UInt8} {ms : List Message}
    (h : Delivers input ms) : ms <+: messages input := by
  induction h with
  | nil => exact List.nil_prefix
  | cons fits decodes _ ih =>
    rw [messages_of_message
      (next_eq_message.mpr ⟨_, _, Frame.receive_eq_frame.mpr ⟨fits, rfl⟩, decodes⟩)]
    exact (List.prefix_cons_inj _).mpr ih

end Server

end MetaFs
