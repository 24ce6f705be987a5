import Rphp.Stream.Memory

namespace Rphp.Stream.ReadBuffer
open Rphp.Lib
set_option autoImplicit true

/-! What the read buffer publishes. -/

structure Valid (b : ReadBuffer) : Prop where
  start_le : b.start ≤ b.stop
  stop_le : b.stop ≤ b.bytes.length

theorem valid_empty : Valid empty := ⟨Nat.le_refl 0, Nat.le_refl 0⟩

variable {b : ReadBuffer} {bytes cover : List UInt8}

theorem published_eq (b : ReadBuffer) : b.published = (b.bytes.drop b.start).take b.unreadLen := by
  rw [published, unreadLen, List.drop_take]

theorem Valid.published_length (h : Valid b) : b.published.length = b.unreadLen := by
  have := h.start_le
  have := h.stop_le
  rw [published_eq, List.length_take, List.length_drop, unreadLen]
  omega

theorem Valid.published_eq_nil_iff (h : Valid b) : b.published = [] ↔ b.unreadLen = 0 := by
  rw [← h.published_length, List.length_eq_zero_iff]

theorem blit_zero (bytes cover : List UInt8) :
    blit bytes 0 cover = cover ++ bytes.drop cover.length := by
  rw [blit, List.take_zero, List.nil_append, Nat.zero_add]

theorem take_append_length {l m : List UInt8} (h : l.length = n) : (l ++ m).take n = l := by
  rw [← h, List.take_left']
  rfl

section Fills

theorem refill_published (b : ReadBuffer) (read : List UInt8) :
    (b.refill read).published = read := by
  simp only [refill, published, blit_zero, List.drop_zero]
  exact take_append_length rfl

theorem refill_valid (b : ReadBuffer) (read : List UInt8) : (b.refill read).Valid where
  start_le := Nat.zero_le _
  stop_le := by
    simp only [refill, blit_zero, List.length_append]
    exact Nat.le_add_right _ _

theorem snapshot_published (b : ReadBuffer) (bytes : List UInt8) :
    (b.snapshot bytes).published = bytes := by
  rw [published, snapshot, List.take_length, List.drop_zero]

theorem snapshot_valid (b : ReadBuffer) (bytes : List UInt8) : (b.snapshot bytes).Valid :=
  ⟨Nat.zero_le _, Nat.le_refl _⟩

theorem discard_published (b : ReadBuffer) : b.discard.published = [] := by
  rw [published, discard, List.take_zero, List.drop_nil]

theorem discard_valid (b : ReadBuffer) : b.discard.Valid := ⟨Nat.le_refl 0, Nat.zero_le _⟩

theorem take_bytes (b : ReadBuffer) (count : Nat) : (b.take count).1 = b.published.take count := by
  simp only [take, published_eq, List.take_take]

theorem take_published (h : Valid b) (count : Nat) :
    (b.take count).2.published = b.published.drop count := by
  have := h.start_le
  simp only [take, published_eq, unreadLen]
  rw [List.drop_take, List.drop_drop]
  by_cases hle : count ≤ b.stop - b.start
  · rw [Nat.min_eq_left hle, Nat.sub_add_eq]
  · have hmin : min count (b.stop - b.start) = b.stop - b.start := Nat.min_eq_right (by omega)
    have hzero : b.stop - b.start - count = 0 := by omega
    have hzero' : b.stop - (b.start + (b.stop - b.start)) = 0 := by omega
    rw [hmin, hzero, hzero', List.take_zero, List.take_zero]

theorem take_valid (h : Valid b) (count : Nat) : (b.take count).2.Valid where
  start_le := by
    have := h.start_le
    simp only [take, unreadLen]
    omega
  stop_le := h.stop_le

end Fills

section Returns

/-- There is room before the published bytes. -/
theorem putBack_before (h : Valid b) (hle : bytes.length ≤ b.start) :
    (⟨blit b.bytes (b.start - bytes.length) bytes, b.start - bytes.length, b.stop⟩ :
      ReadBuffer).published = bytes ++ b.published := by
  have hstart := h.start_le
  have hstop := h.stop_le
  have hlength : (b.bytes.take (b.start - bytes.length)).length = b.start - bytes.length := by
    rw [List.length_take]
    omega
  simp only [published, blit, List.append_assoc, Nat.sub_add_cancel hle]
  rw [List.take_append, List.drop_append, hlength, List.take_of_length_le (by omega),
    List.drop_of_length_le (Nat.le_of_eq hlength), hlength, Nat.sub_self, List.drop_zero,
    List.nil_append, List.take_append, List.take_of_length_le (by omega), List.drop_take]
  congr 2
  omega

/-- The published bytes first move to the front of the storage, and then behind the others. -/
theorem putBack_front (published bytes storage : List UInt8) :
    (⟨blit (blit (blit storage 0 published ++ List.replicate
          (published.length + bytes.length - (blit storage 0 published).length) 0) bytes.length
        ((blit storage 0 published ++ List.replicate
          (published.length + bytes.length - (blit storage 0 published).length) 0).take
          published.length)) 0 bytes, 0, published.length + bytes.length⟩ :
      ReadBuffer).published = bytes ++ published := by
  have hfront : ∀ rest : List UInt8, (published ++ rest).take published.length = published :=
    fun rest => take_append_length rfl
  generalize hresized : blit storage 0 published ++ List.replicate
    (published.length + bytes.length - (blit storage 0 published).length) 0 = resized
  have htake : resized.take published.length = published := by
    rw [← hresized, blit_zero, List.append_assoc]
    exact hfront _
  have hroom : bytes.length ≤ resized.length := by
    rw [← hresized, List.length_append, List.length_replicate]
    omega
  have hbefore : (resized.take bytes.length).length = bytes.length := by
    rw [List.length_take, Nat.min_eq_left hroom]
  rw [htake, ReadBuffer.published, List.drop_zero, blit_zero, blit, List.append_assoc,
    List.drop_append, hbefore, List.drop_of_length_le (Nat.le_of_eq hbefore), Nat.sub_self,
    List.drop_zero, List.nil_append, List.take_append,
    List.take_of_length_le (Nat.le_add_left _ _), Nat.add_sub_cancel, hfront]

theorem putBack_published (h : Valid b) : (b.putBack bytes).published = bytes ++ b.published := by
  rw [putBack]
  by_cases hnil : bytes = []
  · rw [if_pos hnil, hnil]
    rfl
  · rw [if_neg hnil]
    by_cases hle : bytes.length ≤ b.start
    · rw [if_pos hle]
      exact putBack_before h hle
    · rw [if_neg hle]
      have hpublished : (b.bytes.drop b.start).take (b.stop - b.start) = b.published := by
        rw [published_eq, unreadLen]
      have hlength : b.published.length = b.stop - b.start := h.published_length
      simp only [hpublished]
      rw [← hlength]
      exact putBack_front b.published bytes _

theorem putBack_valid (h : Valid b) (bytes : List UInt8) : (b.putBack bytes).Valid := by
  rw [putBack]
  by_cases hnil : bytes = []
  · rw [if_pos hnil]
    exact h
  · rw [if_neg hnil]
    by_cases hle : bytes.length ≤ b.start
    · rw [if_pos hle]
      have := h.start_le
      have := h.stop_le
      refine ⟨by simp only; omega, ?_⟩
      simp only [blit, List.length_append, List.length_take, List.length_drop]
      omega
    · rw [if_neg hle]
      refine ⟨Nat.zero_le _, ?_⟩
      simp only [blit, List.length_append, List.length_take, List.length_drop,
        List.length_replicate]
      omega

end Returns

end Rphp.Stream.ReadBuffer
