import Mathlib.Algebra.GroupWithZero.Nat
import Mathlib.Data.List.Basic

/-!
# Fixed-size buffers written in place

A buffer is a list whose length never changes.  `overlay buf off xs` is `memcpy(buf + off, xs)` and
`slice buf off n` reads `n` elements at `off`.

* `getElem?_overlay` — what every position holds afterwards; `slice_overlay_self` and
  `slice_overlay_of_disjoint` are the read-back and the frame rule.
* `overlay_append_left`, `overlay_append_right`, `overlay_all` — a write into a buffer made of
  regions is a write into one region.  This is what turns a sequence of in-place writes into a
  concatenation.
* `overlay_flatten`, `overlay_flatten_fill` — the same for a list of regions, and for a region that
  is filled from the front.
* `overlayAll` — several copies in order: the last one that covers a position decides.
* `overlay_append`, `foldl_set_range` — writing piece by piece, or element by element, is one
  overlay.
-/

namespace Buffer

variable {α : Type*}

/-- Copy `xs` into the buffer at offset `off`.  Elements that would fall past the end are dropped:
the length of a buffer never changes. -/
def overlay : List α → ℕ → List α → List α
  | [], _, _ => []
  | b :: bs, 0, [] => b :: bs
  | _ :: bs, 0, x :: xs => x :: overlay bs 0 xs
  | b :: bs, off + 1, xs => b :: overlay bs off xs

/-- The `n` elements at offset `off`. -/
def slice (buf : List α) (off n : ℕ) : List α := (buf.drop off).take n

@[simp] theorem length_overlay : ∀ (buf : List α) (off : ℕ) (xs : List α),
    (overlay buf off xs).length = buf.length
  | [], _, _ => rfl
  | _ :: _, 0, [] => rfl
  | _ :: bs, 0, _ :: xs => by simp [overlay, length_overlay bs 0 xs]
  | _ :: bs, off + 1, xs => by simp [overlay, length_overlay bs off xs]

@[simp] theorem overlay_nil_right : ∀ (buf : List α) (off : ℕ), overlay buf off [] = buf
  | [], _ => rfl
  | _ :: _, 0 => rfl
  | _ :: bs, off + 1 => by rw [overlay, overlay_nil_right bs off]

/-- **What a position holds after the copy.** -/
theorem getElem?_overlay : ∀ (buf : List α) (off : ℕ) (xs : List α) (i : ℕ),
    (overlay buf off xs)[i]?
      = if off ≤ i ∧ i < off + xs.length ∧ i < buf.length then xs[i - off]? else buf[i]?
  | [], _, _, _ => by simp [overlay]
  | _ :: _, 0, [], _ => by simp [overlay]
  | b :: bs, 0, x :: xs, 0 => by simp [overlay]
  | b :: bs, 0, x :: xs, i + 1 => by
      have ih := getElem?_overlay bs 0 xs i
      simpa [overlay, Nat.add_lt_add_iff_right] using ih
  | b :: bs, off + 1, xs, 0 => by simp [overlay]
  | b :: bs, off + 1, xs, i + 1 => by
      have ih := getElem?_overlay bs off xs i
      simp only [overlay, List.getElem?_cons_succ, ih, List.length_cons,
        Nat.add_le_add_iff_right, Nat.add_lt_add_iff_right, Nat.add_sub_add_right,
        Nat.succ_add]
      simp only [Nat.succ_eq_add_one, Nat.add_lt_add_iff_right]

theorem getElem?_overlay_of_mem {buf : List α} {off : ℕ} {xs : List α} {i : ℕ}
    (hle : off ≤ i) (hlt : i < off + xs.length) (hin : off + xs.length ≤ buf.length) :
    (overlay buf off xs)[i]? = xs[i - off]? := by
  rw [getElem?_overlay, if_pos ⟨hle, hlt, by omega⟩]

/-! ## Writing into one region -/

theorem overlay_append_right (as bs : List α) (off : ℕ) (xs : List α) :
    overlay (as ++ bs) (as.length + off) xs = as ++ overlay bs off xs := by
  induction as with
  | nil => simp
  | cons a as ih =>
      rw [List.length_cons, List.cons_append, Nat.add_right_comm, overlay, ih, List.cons_append]

theorem overlay_append_left : ∀ (as bs : List α) (off : ℕ) (xs : List α),
    off + xs.length ≤ as.length → overlay (as ++ bs) off xs = overlay as off xs ++ bs
  | [], bs, off, xs, h => by
      have hxs : xs = [] := List.eq_nil_of_length_eq_zero (Nat.le_zero.mp (by
        have := List.length_nil (α := α) ▸ h
        omega))
      subst hxs
      simp
  | _ :: _, _, 0, [], _ => rfl
  | _ :: as, bs, 0, _ :: xs, h => by
      have hle : 0 + xs.length ≤ as.length := by simp at h ⊢; omega
      simp [overlay, overlay_append_left as bs 0 xs hle]
  | _ :: as, bs, off + 1, xs, h => by
      have hle : off + xs.length ≤ as.length := by simp at h ⊢; omega
      simp [overlay, overlay_append_left as bs off xs hle]

/-- A write across the seam of two regions is a write into each. -/
theorem overlay_split : ∀ (as bs : List α) (off : ℕ) (xs : List α),
    overlay (as ++ bs) off xs
      = overlay as off xs ++ overlay bs (off - as.length) (xs.drop (as.length - off))
  | [], _, _, _ => by simp [overlay]
  | _ :: _, _, 0, [] => by simp
  | a :: as, bs, 0, x :: xs => by
      have ih := overlay_split as bs 0 xs
      simp only [Nat.zero_sub, Nat.sub_zero] at ih
      simp [overlay, ih]
  | a :: as, bs, off + 1, xs => by
      simp [overlay, overlay_split as bs off xs]

/-- Copying over a whole region replaces it. -/
theorem overlay_all : ∀ (buf xs : List α), xs.length = buf.length → overlay buf 0 xs = xs
  | [], [], _ => rfl
  | [], _ :: _, h => by simp at h
  | _ :: _, [], h => by simp at h
  | _ :: bs, x :: xs, h => by
      rw [overlay, overlay_all bs xs (by simpa using h)]

/-- Copying over the front of a region leaves its rest. -/
theorem overlay_front (buf xs : List α) (h : xs.length ≤ buf.length) :
    overlay buf 0 xs = xs ++ buf.drop xs.length := by
  have hsplit : overlay (buf.take xs.length ++ buf.drop xs.length) 0 xs
      = overlay (buf.take xs.length) 0 xs ++ buf.drop xs.length :=
    overlay_append_left _ _ 0 xs (by rw [List.length_take]; omega)
  have hall : overlay (buf.take xs.length) 0 xs = xs :=
    overlay_all _ _ (by rw [List.length_take]; omega)
  rwa [List.take_append_drop, hall] at hsplit

/-- A write over another one leaves nothing of it. -/
theorem overlay_overlay (buf : List α) (off : ℕ) {xs ys : List α} (h : xs.length ≤ ys.length) :
    overlay (overlay buf off xs) off ys = overlay buf off ys := by
  refine List.ext_getElem? fun i => ?_
  rw [getElem?_overlay, getElem?_overlay, getElem?_overlay, length_overlay]
  by_cases hys : off ≤ i ∧ i < off + ys.length ∧ i < buf.length
  · rw [if_pos hys, if_pos hys]
  · rw [if_neg hys, if_neg hys, if_neg fun hxs => hys ⟨hxs.1, by omega, hxs.2.2⟩]

/-- Copying two runs one after the other is copying their concatenation. -/
theorem overlay_append : ∀ (buf : List α) (off : ℕ) (xs ys : List α),
    overlay buf off (xs ++ ys) = overlay (overlay buf off xs) (off + xs.length) ys
  | [], _, _, _ => rfl
  | _ :: _, 0, [], _ => by simp
  | b :: bs, 0, x :: xs, ys => by
      have ih := overlay_append bs 0 xs ys
      rw [Nat.zero_add] at ih
      rw [List.cons_append, overlay, ih, overlay, List.length_cons, Nat.zero_add, overlay]
  | b :: bs, off + 1, xs, ys => by
      rw [overlay, overlay_append bs off xs ys, overlay, Nat.add_right_comm, overlay]

theorem overlay_cons (buf : List α) (off : ℕ) (x : α) (xs : List α) :
    overlay buf off (x :: xs) = overlay (overlay buf off [x]) (off + 1) xs :=
  overlay_append buf off [x] xs

/-- Assigning one element is a copy of length one. -/
theorem set_eq_overlay : ∀ (buf : List α) (i : ℕ) (x : α), buf.set i x = overlay buf i [x]
  | [], _, _ => rfl
  | b :: bs, 0, x => by rw [List.set_cons_zero, overlay, overlay_nil_right]
  | b :: bs, i + 1, x => by rw [List.set_cons_succ, overlay, set_eq_overlay bs i x]

/-- **The loop `buf[off + i] = f(i)`** is one copy. -/
theorem foldl_set_range (f : ℕ → α) (buf : List α) (off w : ℕ) :
    (List.range w).foldl (fun buf i => buf.set (off + i) (f i)) buf
      = overlay buf off ((List.range w).map f) := by
  induction w with
  | zero => exact (overlay_nil_right buf off).symm
  | succ w ih =>
      rw [List.range_succ, List.foldl_append, ih, List.map_append, overlay_append]
      simp [set_eq_overlay]

/-- **A write into one region** of a buffer made of several. -/
theorem overlay_flatten (pre : List (List α)) (region : List α) (post : List (List α))
    (base off : ℕ) (xs : List α) (hbase : base = pre.flatten.length + off)
    (hin : off + xs.length ≤ region.length) :
    overlay (pre ++ region :: post).flatten base xs
      = (pre ++ overlay region off xs :: post).flatten := by
  subst hbase
  simp only [List.flatten_append, List.flatten_cons]
  rw [overlay_append_right, overlay_append_left _ _ _ _ hin]

/-- **Filling a region**: a run written right after what the region already holds takes up the
first of the remaining room. -/
theorem overlay_flatten_fill (pre : List (List α)) (done xs room : List α) (d : α) (k : ℕ)
    (post : List (List α)) (base : ℕ) (hbase : base = pre.flatten.length + done.length)
    (hroom : room = List.replicate (xs.length + k) d) :
    overlay (pre ++ (done ++ room) :: post).flatten base xs
      = (pre ++ ((done ++ xs) ++ List.replicate k d) :: post).flatten := by
  subst hroom
  rw [overlay_flatten pre _ post base _ xs hbase (by simp)]
  have hfill := overlay_append_right done (List.replicate (xs.length + k) d) 0 xs
  rw [Nat.add_zero] at hfill
  rw [hfill, overlay_front _ _ (by simp), List.drop_replicate, Nat.add_sub_cancel_left,
    List.append_assoc]

/-! ## Reading back -/

@[simp] theorem length_slice (buf : List α) (off n : ℕ) :
    (slice buf off n).length = min n (buf.length - off) := by simp [slice]

theorem length_slice_of_le {buf : List α} {off n : ℕ} (h : off + n ≤ buf.length) :
    (slice buf off n).length = n := by rw [length_slice]; omega

theorem getElem?_slice (buf : List α) (off n i : ℕ) :
    (slice buf off n)[i]? = if i < n then buf[off + i]? else none := by
  simp [slice, List.getElem?_take]

theorem slice_overlay_self {buf : List α} {off : ℕ} {xs : List α}
    (h : off + xs.length ≤ buf.length) : slice (overlay buf off xs) off xs.length = xs := by
  refine List.ext_getElem? fun i => ?_
  rw [getElem?_slice]
  by_cases hi : i < xs.length
  · rw [if_pos hi, getElem?_overlay_of_mem (by omega) (by omega) h, Nat.add_sub_cancel_left]
  · rw [if_neg hi, List.getElem?_eq_none (by omega)]

/-- Copying what is already there changes nothing. -/
theorem overlay_slice (buf : List α) (off n : ℕ) : overlay buf off (slice buf off n) = buf := by
  refine List.ext_getElem? fun i => ?_
  rw [getElem?_overlay]
  split
  · rename_i hi
    rw [getElem?_slice, if_pos (by simp at hi; omega)]
    congr 1
    omega
  · rfl

theorem slice_overlay_of_disjoint {buf : List α} {off : ℕ} {xs : List α} {a n : ℕ}
    (h : a + n ≤ off ∨ off + xs.length ≤ a) :
    slice (overlay buf off xs) a n = slice buf a n := by
  refine List.ext_getElem? fun i => ?_
  rw [getElem?_slice, getElem?_slice]
  by_cases hi : i < n
  · rw [if_pos hi, if_pos hi, getElem?_overlay, if_neg (by omega)]
  · rw [if_neg hi, if_neg hi]

/-- Reading back a piece of a concatenation. -/
theorem slice_mid {pre xs post : List α} {off n : ℕ} (hoff : off = pre.length)
    (hn : n = xs.length) : slice (pre ++ (xs ++ post)) off n = xs := by
  subst hoff hn
  simp [slice]

/-- A slice inside the buffer, element by element. -/
theorem slice_eq_map (buf : List α) (d : α) {off n : ℕ} (h : off + n ≤ buf.length) :
    slice buf off n = (List.range n).map fun i => buf.getD (off + i) d := by
  refine List.ext_getElem? fun i => ?_
  rw [getElem?_slice]
  by_cases hi : i < n
  · rw [if_pos hi, List.getElem?_eq_getElem (by omega : off + i < buf.length)]
    simp [hi, List.getD_eq_getElem?_getD, List.getElem?_eq_getElem (by omega : off + i < buf.length)]
  · rw [if_neg hi, List.getElem?_eq_none (by simpa using hi)]

theorem slice_slice (buf : List α) {off n a m : ℕ} (h : a + m ≤ n) :
    slice (slice buf off n) a m = slice buf (off + a) m := by
  refine List.ext_getElem? fun i => ?_
  simp only [getElem?_slice]
  by_cases hi : i < m
  · rw [if_pos hi, if_pos hi, if_pos (by omega), Nat.add_assoc]
  · rw [if_neg hi, if_neg hi]

theorem slice_add (buf : List α) (off m n : ℕ) :
    slice buf off (m + n) = slice buf off m ++ slice buf (off + m) n := by
  simp [slice, List.take_add, List.drop_drop]

/-- A piece of a buffer that is cut into pieces of one size. -/
theorem slice_flatten_of_length {pieces : List (List α)} {size : ℕ}
    (hsize : ∀ piece ∈ pieces, piece.length = size) {i : ℕ} {piece : List α}
    (h : pieces[i]? = some piece) : slice pieces.flatten (i * size) size = piece := by
  induction pieces generalizing i with
  | nil => cases h
  | cons first pieces ih =>
      obtain ⟨hfirst, hsize⟩ := List.forall_mem_cons.mp hsize
      rw [List.flatten_cons]
      cases i with
      | zero =>
          obtain rfl := Option.some.inj h
          rw [Nat.zero_mul]
          exact @slice_mid _ [] first pieces.flatten 0 size rfl hfirst.symm
      | succ i =>
          rw [Nat.succ_mul, Nat.add_comm, slice, ← hfirst, List.drop_length_add_append, hfirst]
          exact ih hsize h

theorem slice_all (xs : List α) : slice xs 0 xs.length = xs := by simp [slice]

/-- **Two buffers cut into pieces of the same sizes** are equal if their pieces are. -/
theorem eq_of_slices {a b : List α} {sizes : List ℕ} (ha : a.length = sizes.sum)
    (hb : b.length = sizes.sum)
    (h : ∀ k n, sizes[k]? = some n →
      slice a (sizes.take k).sum n = slice b (sizes.take k).sum n) : a = b := by
  have hfront : ∀ k, k ≤ sizes.length →
      slice a 0 (sizes.take k).sum = slice b 0 (sizes.take k).sum := by
    intro k
    induction k with
    | zero => exact fun _ => rfl
    | succ k ih =>
        intro hk
        have hn : sizes[k]? = some sizes[k] := List.getElem?_eq_getElem hk
        have hpiece := h k _ hn
        rw [List.take_add_one, hn, List.sum_append, slice_add, slice_add, ih (Nat.le_of_succ_le hk)]
        simp [hpiece]
  have hall := hfront sizes.length (Nat.le_refl _)
  rw [List.take_length] at hall
  rw [← slice_all a, ← slice_all b, ha, hb, hall]

/-! ## Several copies, one after the other -/

section Foldl

variable {β : Type*} (offset : β → ℕ) (content : β → List α)

/-- Copy every piece to its offset, in order. -/
def overlayAll (buf : List α) (pieces : List β) : List α :=
  pieces.foldl (fun buf piece => overlay buf (offset piece) (content piece)) buf

/-- The piece covers the position. -/
def Covers (piece : β) (i : ℕ) : Prop :=
  offset piece ≤ i ∧ i < offset piece + (content piece).length

@[simp] theorem length_overlayAll : ∀ (buf : List α) (pieces : List β),
    (overlayAll offset content buf pieces).length = buf.length
  | _, [] => rfl
  | buf, piece :: pieces =>
      (length_overlayAll (overlay buf (offset piece) (content piece)) pieces).trans
        (length_overlay _ _ _)

theorem overlayAll_append (buf : List α) (as bs : List β) :
    overlayAll offset content buf (as ++ bs)
      = overlayAll offset content (overlayAll offset content buf as) bs := List.foldl_append

variable {offset content}

/-- A position that no piece covers keeps its value. -/
theorem getElem?_overlayAll_of_uncovered : ∀ (b : List α) (pieces : List β) (i : ℕ),
    (∀ piece ∈ pieces, ¬Covers offset content piece i) →
      (overlayAll offset content b pieces)[i]? = b[i]?
  | _, [], _, _ => rfl
  | buf, piece :: pieces, i, h => by
      have hpiece := h piece (by simp)
      have hstep : (overlay buf (offset piece) (content piece))[i]? = buf[i]? := by
        rw [getElem?_overlay, if_neg]
        rintro ⟨hle, hlt, -⟩
        exact hpiece ⟨hle, hlt⟩
      have ih := getElem?_overlayAll_of_uncovered (overlay buf (offset piece) (content piece))
        pieces i fun p hp => h p (by simp [hp])
      exact ih.trans hstep

/-- **The last piece that covers a position decides its value.** -/
theorem getElem?_overlayAll_of_last {b : List α} (before after : List β) (piece : β) (i : ℕ)
    (hin : i < b.length) (hcovers : Covers offset content piece i)
    (hafter : ∀ p ∈ after, ¬Covers offset content p i) :
    (overlayAll offset content b (before ++ piece :: after))[i]?
      = (content piece)[i - offset piece]? := by
  have hlater := getElem?_overlayAll_of_uncovered
    (overlay (overlayAll offset content b before) (offset piece) (content piece)) after i hafter
  rw [getElem?_overlay, if_pos ⟨hcovers.1, hcovers.2, by simpa using hin⟩] at hlater
  rw [overlayAll_append]
  exact hlater

/-- **A piece that no later one meets** can be read back. -/
theorem slice_overlayAll_of_last {b : List α} (before after : List β) (piece : β)
    (hin : offset piece + (content piece).length ≤ b.length)
    (hafter : ∀ p ∈ after, ∀ i, Covers offset content piece i → ¬Covers offset content p i) :
    slice (overlayAll offset content b (before ++ piece :: after)) (offset piece)
      (content piece).length = content piece := by
  refine List.ext_getElem? fun i => ?_
  rw [getElem?_slice]
  by_cases hi : i < (content piece).length
  · have hcovers : Covers offset content piece (offset piece + i) := ⟨by omega, by omega⟩
    rw [if_pos hi, getElem?_overlayAll_of_last before after piece _ (by omega) hcovers
      fun p hp => hafter p hp _ hcovers, Nat.add_sub_cancel_left]
  · rw [if_neg hi, List.getElem?_eq_none (by omega)]

end Foldl

end Buffer
