import RegionLayout.Bytes

namespace RegionLayout.Bytes

/-- The `count` bytes from `start` on. -/
def part (bs : Bytes) (start count : Nat) : Bytes := (bs.drop start).take count

/-- The bytes with those from `start` on replaced by `data`. -/
def overlay (bs : Bytes) (start : Nat) (data : Bytes) : Bytes :=
  bs.take start ++ data ++ bs.drop (start + data.length)

variable {bs data : Bytes} {start inner count size : Nat}

theorem slice?_of_le (h : start + count ≤ bs.length) :
    slice? bs start count = some (part bs start count) :=
  if_pos (reaches_iff.mpr h)

theorem slice?_of_lt (h : bs.length < start + count) : slice? bs start count = none :=
  if_neg fun hreach => absurd (reaches_iff.mp hreach) (Nat.not_le.mpr h)

theorem splice?_of_le (h : start + data.length ≤ bs.length) :
    splice? bs start data = some (overlay bs start data) := if_pos h

theorem splice?_of_lt (h : bs.length < start + data.length) : splice? bs start data = none :=
  if_neg (Nat.not_le.mpr h)

theorem length_part (h : start + count ≤ bs.length) : (part bs start count).length = count := by
  rw [part, List.length_take, List.length_drop]
  omega

theorem length_overlay (h : start + data.length ≤ bs.length) :
    (overlay bs start data).length = bs.length := by
  rw [overlay, List.length_append, List.length_append, List.length_take, List.length_drop]
  omega

private theorem getElem?_part (i : Nat) :
    (part bs start count)[i]? = if i < count then bs[start + i]? else none := by
  rw [part, List.getElem?_take]
  split
  · rw [List.getElem?_drop]
  · rfl

private theorem getElem?_overlay (h : start + data.length ≤ bs.length) (i : Nat) :
    (overlay bs start data)[i]? =
      if start ≤ i ∧ i < start + data.length then data[i - start]? else bs[i]? := by
  have htake : (bs.take start).length = start := by
    rw [List.length_take]
    omega
  rw [overlay, List.append_assoc]
  by_cases hlo : i < start
  · rw [List.getElem?_append_left (by omega), List.getElem?_take, if_pos hlo, if_neg (by omega)]
  · rw [List.getElem?_append_right (by omega), htake]
    by_cases hhi : i < start + data.length
    · rw [List.getElem?_append_left (by omega), if_pos ⟨by omega, hhi⟩]
    · rw [List.getElem?_append_right (by omega), List.getElem?_drop, if_neg (by omega)]
      congr 1
      omega

theorem part_part (h : inner + count ≤ size) :
    part (part bs start size) inner count = part bs (start + inner) count := by
  apply List.ext_getElem?
  intro i
  simp only [getElem?_part, Nat.add_assoc]
  split
  · rw [if_pos (by omega)]
  · rfl

theorem part_overlay_within (hinner : inner + data.length ≤ size)
    (hsize : start + size ≤ bs.length) :
    part (overlay bs (start + inner) data) start size =
      overlay (part bs start size) inner data := by
  have hpart := length_part hsize
  apply List.ext_getElem?
  intro i
  rw [getElem?_part, getElem?_overlay (by omega), getElem?_overlay (by omega), getElem?_part]
  by_cases hi : i < size
  · rw [if_pos hi, if_pos hi]
    by_cases hin : inner ≤ i ∧ i < inner + data.length
    · rw [if_pos hin, if_pos (by omega)]
      congr 1
      omega
    · rw [if_neg hin, if_neg (by omega)]
  · rw [if_neg hi, if_neg (by omega), if_neg hi]

theorem part_overlay_apart (hfits : inner + data.length ≤ bs.length)
    (h : start + size ≤ inner ∨ inner + data.length ≤ start) :
    part (overlay bs inner data) start size = part bs start size := by
  apply List.ext_getElem?
  intro i
  rw [getElem?_part, getElem?_part, getElem?_overlay hfits]
  split
  · rw [if_neg (by omega)]
  · rfl

theorem part_append (before middle after : Bytes) :
    part (before ++ (middle ++ after)) before.length middle.length = middle := by
  rw [part, List.drop_left, List.take_left]

theorem overlay_append (before middle after : Bytes) (h : data.length = middle.length) :
    overlay (before ++ (middle ++ after)) before.length data = before ++ (data ++ after) := by
  rw [overlay, List.take_left, h, ← List.drop_drop, List.drop_left, List.drop_left,
    List.append_assoc]

theorem part_zeros (h : start + count ≤ size) : part (zeros size) start count = zeros count := by
  rw [part, zeros, zeros, List.drop_replicate, List.take_replicate]
  congr 1
  omega

end RegionLayout.Bytes
