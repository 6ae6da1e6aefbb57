import Mathlib.Data.List.Basic

/-!
# Frames on a byte stream

A writer sends messages one after the other, each as a header of fixed length
and a body, header and body in two writes. A reader that alternates between a
header and the body it announces stays on the frame boundaries, wherever the
writer is. A message may have many headers (padding is not determined).
-/
namespace Framing

variable {β μ : Type}

structure Format (β μ : Type) where
  headerLength : Nat
  IsHeader : μ → List β → Prop
  body : μ → List β
  header_length : ∀ m header, IsHeader m header → header.length = headerLength

/-- The bytes of whole frames. -/
inductive Frames (f : Format β μ) : List μ → List β → Prop
  | nil : Frames f [] []
  | cons {m : μ} {ms : List μ} {header bytes : List β} (hm : f.IsHeader m header) (hs : Frames f ms bytes) :
      Frames f (m :: ms) (header ++ (f.body m ++ bytes))

/-- What a writer has written: whole frames, then the header of the message it is at. -/
def Written (f : Format β μ) (ms : List μ) (opened : Option μ) (bytes : List β) : Prop :=
  ∃ frames tail, bytes = frames ++ tail ∧ Frames f ms frames ∧
    ((opened = none ∧ tail = []) ∨ ∃ m, opened = some m ∧ f.IsHeader m tail)

variable {f : Format β μ} {m : μ} {ms : List μ} {opened : Option μ} {header bytes : List β}

theorem frames_snoc (h : Frames f ms bytes) (hm : f.IsHeader m header) :
    Frames f (ms ++ [m]) (bytes ++ (header ++ f.body m)) := by
  induction h with
  | nil =>
    have hframe := Frames.cons hm Frames.nil
    rwa [List.append_nil] at hframe
  | cons hk hs ih =>
    rw [List.cons_append, List.append_assoc, List.append_assoc]
    exact Frames.cons hk ih

theorem written_nil (f : Format β μ) : Written f [] none [] :=
  ⟨[], [], rfl, .nil, Or.inl ⟨rfl, rfl⟩⟩

theorem written_header (h : Written f ms none bytes) (hm : f.IsHeader m header) :
    Written f ms (some m) (bytes ++ header) := by
  obtain ⟨frames, tail, rfl, hframes, ⟨-, rfl⟩ | ⟨k, hk, -⟩⟩ := h
  · exact ⟨frames, header, by rw [List.append_nil], hframes, Or.inr ⟨m, rfl, hm⟩⟩
  · cases hk

theorem written_body (h : Written f ms (some m) bytes) : Written f (ms ++ [m]) none (bytes ++ f.body m) := by
  obtain ⟨frames, tail, rfl, hframes, ⟨hk, -⟩ | ⟨k, hk, htail⟩⟩ := h
  · cases hk
  · cases hk
    refine ⟨frames ++ (tail ++ f.body m), [], by simp, frames_snoc hframes htail, Or.inl ⟨rfl, rfl⟩⟩

/-- A full header that can be read is the header of the next message. -/
theorem read_header (h : Written f ms opened bytes) (hpos : 0 < f.headerLength)
    (hlen : f.headerLength ≤ bytes.length) :
    ∃ m, (ms ++ opened.toList).head? = some m ∧ f.IsHeader m (bytes.take f.headerLength) := by
  obtain ⟨frames, tail, rfl, hframes, htail⟩ := h
  cases hframes with
  | nil =>
    rcases htail with ⟨-, rfl⟩ | ⟨k, rfl, hk⟩
    · rw [List.append_nil, List.length_nil] at hlen
      omega
    · refine ⟨k, rfl, ?_⟩
      rwa [List.nil_append, List.take_of_length_le (Nat.le_of_eq (f.header_length k tail hk))]
  | cons hm hs =>
    refine ⟨_, rfl, ?_⟩
    rwa [List.append_assoc, ← f.header_length _ _ hm, List.take_left]

/-- Once the header of a message has been read, a full body that can be read is its body,
and behind it comes what was written after that message. -/
theorem read_body (h : Written f ms opened (header ++ bytes)) (hm : f.IsHeader m header)
    (hnext : (ms ++ opened.toList).head? = some m) (hbody : f.body m ≠ [])
    (hlen : (f.body m).length ≤ bytes.length) :
    ∃ rest, ms = m :: rest ∧ bytes.take (f.body m).length = f.body m ∧
      Written f rest opened (bytes.drop (f.body m).length) := by
  obtain ⟨frames, tail, heq, hframes, htail⟩ := h
  cases hframes with
  | nil =>
    -- the writer is still at this message, so nothing follows its header
    rcases htail with ⟨rfl, -⟩ | ⟨k, rfl, hk⟩
    · cases hnext
    · have hsize := congrArg List.length heq
      rw [List.nil_append, List.length_append, f.header_length _ _ hm, f.header_length _ _ hk] at hsize
      have hpos := List.length_pos_of_ne_nil hbody
      omega
  | @cons k rest header' bytes' hk hs =>
    obtain rfl : k = m := Option.some.inj hnext
    have hsize : header.length = header'.length := by rw [f.header_length _ _ hm, f.header_length _ _ hk]
    rw [List.append_assoc, List.append_assoc] at heq
    obtain ⟨-, rfl⟩ := List.append_inj heq hsize
    refine ⟨rest, rfl, List.take_left, ?_⟩
    rw [List.drop_left]
    exact ⟨bytes', tail, rfl, hs, htail⟩

end Framing
