/-
A part of a buffer that is written to: what is around it (`ChangedIn`), and
what stands at a place of it (`Written`).

A buffer that is filled from the front is a text that grows: each step may
write anywhere in what is left, and has to leave its own bytes at the end of
the text before (`Written.more`).
-/
import WinRadius.Lib.Blocks

namespace WinRadius.Lib

/-- The two buffers differ in `room` bytes at `pos` only. -/
structure ChangedIn (buf : List UInt8) (pos room : Nat)
    (new : List UInt8) : Prop where
  length : new.length = buf.length
  front : new.take pos = buf.take pos
  back : new.drop (pos + room) = buf.drop (pos + room)

/-- The bytes stand at `pos`. -/
def Written (buf : List UInt8) (pos : Nat) (bs : List UInt8) : Prop :=
  bs <+: buf.drop pos

section region

variable {buf mid new bs cs : List UInt8} {pos room p r : Nat}

variable (buf pos room) in
theorem ChangedIn.refl : ChangedIn buf pos room buf :=
  ⟨rfl, rfl, rfl⟩

theorem ChangedIn.trans (h : ChangedIn buf pos room mid)
    (h' : ChangedIn mid pos room new) : ChangedIn buf pos room new :=
  ⟨h'.length.trans h.length, h'.front.trans h.front, h'.back.trans h.back⟩

/-- A smaller region. -/
theorem ChangedIn.mono (h : ChangedIn buf p r new) (hp : pos ≤ p)
    (hr : p + r ≤ pos + room) : ChangedIn buf pos room new := by
  refine ⟨h.length, ?_, ?_⟩
  · have htake (xs : List UInt8) : xs.take pos = (xs.take p).take pos := by
      rw [List.take_take, Nat.min_eq_left hp]
    rw [htake new, h.front, ← htake]
  · have hdrop (xs : List UInt8) : xs.drop (pos + room)
        = (xs.drop (p + r)).drop (pos + room - (p + r)) := by
      rw [List.drop_drop, Nat.add_sub_cancel' hr]
    rw [hdrop new, h.back, ← hdrop]

theorem ChangedIn.overlay (hp : pos ≤ p)
    (hroom : p + bs.length ≤ pos + room)
    (hbuf : p + bs.length ≤ buf.length) :
    ChangedIn buf pos room (overlay buf p bs) := by
  have hlen : (buf.take p).length = p := by
    rw [List.length_take]
    omega
  refine ⟨overlay_length hbuf, ?_, drop_overlay hroom hbuf⟩
  rw [Lib.overlay, List.append_assoc,
    List.take_append_of_le_length (by omega), List.take_take,
    Nat.min_eq_left hp]

theorem written_nil : Written buf pos [] :=
  List.nil_prefix

theorem written_overlay (h : p + bs.length ≤ buf.length) :
    Written (overlay buf p bs) p bs := by
  have hlen : (buf.take p).length = p := by
    rw [List.length_take]
    omega
  rw [Written, overlay, List.append_assoc, List.drop_left' hlen]
  exact List.prefix_append _ _

/-- What is written goes on. -/
theorem Written.append (h : Written buf pos bs)
    (h' : Written buf (pos + bs.length) cs) :
    Written buf pos (bs ++ cs) := by
  obtain ⟨rest, hrest⟩ := h
  obtain ⟨more, hmore⟩ := h'
  refine ⟨more, ?_⟩
  rw [List.append_assoc, hmore, ← List.drop_drop, ← hrest, List.drop_left]

theorem Written.left (h : Written buf pos (bs ++ cs)) :
    Written buf pos bs :=
  (List.prefix_append bs cs).trans h

/-- What stands in front of a region stays. -/
theorem Written.keep (h : Written buf pos bs)
    (hc : ChangedIn buf (pos + bs.length) room new) :
    Written new pos bs := by
  have hfront (xs : List UInt8) : (xs.drop pos).take bs.length
      = (xs.take (pos + bs.length)).drop pos := by
    rw [List.drop_take, Nat.add_sub_cancel_left]
  rw [Written, List.prefix_iff_eq_take, hfront, hc.front, ← hfront]
  exact List.prefix_iff_eq_take.mp h

/-- A step of a buffer that is filled from the front. -/
theorem Written.more (h : Written buf pos bs)
    (hc : ChangedIn buf (pos + bs.length) room new)
    (hnew : Written new (pos + bs.length) cs) :
    Written new pos (bs ++ cs) :=
  (h.keep hc).append hnew

end region

end WinRadius.Lib
