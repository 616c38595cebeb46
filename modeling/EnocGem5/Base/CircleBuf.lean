import Mathlib

/-!
# CircleBuf — a circular buffer that keeps what was written last

The cells of the buffer from `_stop` on, once around, are the `c` elements written last (`ring`),
and the contents are the last of these. A write shifts the ring by its length, wherever it wraps; to
move both indices by a lap changes nothing.
-/

namespace EnocGem5.Base

open List Nat

universe u

variable {α : Type u}

/-- `std::copy` of `xs` to the cells from `at_` on. -/
def copyTo (buf : List α) (at_ : ℕ) (xs : List α) : List α :=
  buf.take at_ ++ xs ++ buf.drop (at_ + xs.length)

structure CircleBuf (α : Type u) where
  buf : List α
  _start : ℕ := 0
  _stop : ℕ := 0
  deriving DecidableEq, Repr

namespace CircleBuf

variable (b : CircleBuf α)

def size : ℕ := b._stop - b._start

def flush : CircleBuf α := { b with _start := 0, _stop := 0 }

def peek (offset len : ℕ) : Option (List α) :=
  if offset + len > b.size then none
  else
    let real_start := (offset + b._start) % b.buf.length
    if real_start + len ≤ b.buf.length then some ((b.buf.drop real_start).take len)
    else
      let head_size := b.buf.length - real_start
      let tail_size := len - head_size
      some (b.buf.drop real_start ++ b.buf.take tail_size)

def normalize : Option (CircleBuf α) :=
  let b := if b._start ≥ b.buf.length
    then { b with _stop := b._stop - b.buf.length, _start := b._start - b.buf.length } else b
  if b._start < b.buf.length ∧ b._stop < 2 * b.buf.length ∧ b._start ≤ b._stop then some b else none

def read (len : ℕ) : Option (CircleBuf α × List α) :=
  (b.peek 0 len).bind fun out => (normalize { b with _start := b._start + len }).map (·, out)

/-- `write`, for a sequence that fits into the backing store. -/
def writeFitting (xs : List α) : Option (CircleBuf α) :=
  let next := b._stop % b.buf.length
  let head_len := min (b.buf.length - next) xs.length
  let buf := copyTo (copyTo b.buf next (xs.take head_len)) 0 (xs.drop head_len)
  let b := { b with buf := buf, _stop := b._stop + xs.length }
  normalize (if b.size > b.buf.length then { b with _start := b._stop - b.buf.length } else b)

def write (xs : List α) : Option (CircleBuf α) :=
  b.writeFitting (if xs.length > b.buf.length then xs.drop (xs.length - b.buf.length) else xs)

inductive Call (α : Type u)
  | write (xs : List α)
  | read (len : ℕ)
  | peek (offset len : ℕ)
  | flush

def call : Call α → Option (CircleBuf α × List α)
  | .write xs => (b.write xs).map (·, [])
  | .read len => b.read len
  | .peek offset len => (b.peek offset len).map (b, ·)
  | .flush => some (b.flush, [])

def run : CircleBuf α → List (Call α) → Option (CircleBuf α × List (List α))
  | b, [] => some (b, [])
  | b, c :: calls => (b.call c).bind fun r => (r.1.run calls).map fun r' => (r'.1, r.2 :: r'.2)

/-- Reads and peeks are within the stored size. -/
def Call.Within (size : ℕ) : Call α → Prop
  | .read len => len ≤ size
  | .peek offset len => offset + len ≤ size
  | _ => True

instance (size : ℕ) : ∀ d : Call α, Decidable (d.Within size)
  | .read _ | .peek _ _ => inferInstanceAs (Decidable (_ ≤ size))
  | .write _ | .flush => isTrue trivial

/-- The documented invariants, and that no more than the capacity is stored. -/
structure Inv (b : CircleBuf α) : Prop where
  start_le : b._start ≤ b._stop
  start_lt : b._start < b.buf.length
  stop_lt : b._stop < 2 * b.buf.length
  size_le : b.size ≤ b.buf.length

end CircleBuf

/-! ## What was written -/

/-- The elements written since the last flush, and how many of them come up to the last one that was
read. -/
structure Stream (α : Type u) where
  written : List α := []
  passed : ℕ := 0

namespace Stream

/-- The elements written after the last one that was read. -/
def unread (s : Stream α) : List α := s.written.drop s.passed

/-- The last `c` of them. -/
def stored (c : ℕ) (s : Stream α) : List α := s.unread.rtake c

/-- A read passes over the elements that were overwritten and those it returns. -/
def call (c : ℕ) (s : Stream α) : CircleBuf.Call α → Stream α
  | .write xs => { s with written := s.written ++ xs }
  | .read len => { s with passed := s.written.length - (s.stored c).length + len }
  | .peek _ _ => s
  | .flush => {}

def output (c : ℕ) (s : Stream α) : CircleBuf.Call α → List α
  | .read len => (s.stored c).take len
  | .peek offset len => ((s.stored c).drop offset).take len
  | _ => []

def outputs (c : ℕ) : Stream α → List (CircleBuf.Call α) → List (List α)
  | _, [] => []
  | s, d :: calls => s.output c d :: outputs c (s.call c d) calls

def Within (c : ℕ) : Stream α → List (CircleBuf.Call α) → Prop
  | _, [] => True
  | s, d :: calls => d.Within (s.stored c).length ∧ Within c (s.call c d) calls

instance (c : ℕ) : ∀ (s : Stream α) (calls : List (CircleBuf.Call α)), Decidable (s.Within c calls)
  | _, [] => isTrue trivial
  | s, d :: calls =>
    have := instDecidableWithin c (s.call c d) calls
    inferInstanceAs (Decidable (_ ∧ _))

end Stream

namespace CircleBuf

variable {b b' : CircleBuf α} {s : Stream α} {xs buf : List α} {n len offset : ℕ}

/-! ## The ring -/

/-- All cells, the oldest first. -/
def ring (b : CircleBuf α) : List α := b.buf.rotate b._stop

def contents (b : CircleBuf α) : List α := b.ring.drop (b.buf.length - b.size)

theorem length_contents (h : b.Inv) : b.contents.length = b.size := by
  have := h.size_le
  rw [contents, length_drop, ring, length_rotate]
  omega

theorem rotate_start (h : b.Inv) :
    b.buf.rotate b._start = b.contents ++ b.ring.take (b.buf.length - b.size) := by
  have hle := h.size_le
  have hlength : (b.buf.rotate b._start).length = b.buf.length := length_rotate _ _
  have hring : b.ring = (b.buf.rotate b._start).rotate b.size := by
    rw [ring, rotate_rotate, size, Nat.add_sub_cancel' h.start_le]
  rw [contents, hring]
  generalize b.buf.rotate b._start = cells at hlength ⊢
  have hdrop : (cells.drop b.size).length = b.buf.length - b.size := by rw [length_drop, hlength]
  rw [rotate_eq_drop_append_take (hlength ▸ hle), drop_left' hdrop, take_left' hdrop,
    take_append_drop]

theorem peek_eq (h : b.Inv) (hlen : offset + len ≤ b.size) :
    b.peek offset len = some ((b.contents.drop offset).take len) := by
  have hsize := h.size_le
  have hcontents := length_contents h
  -- the cells from the offset on, once around
  have hslice : ((b.contents.drop offset).take len) =
      (b.buf.rotate (offset + b._start)).take len := by
    rw [Nat.add_comm, ← rotate_rotate, rotate_start h, rotate_eq_drop_append_take (by simp; omega),
      drop_append_of_le_length (by omega), append_assoc, take_append_of_le_length (by simp; omega)]
  rw [peek, if_neg (by omega), hslice, rotate_eq_drop_append_take_mod]
  dsimp only
  split
  · rw [take_append_of_le_length (by simp; omega)]
  · rw [take_append, length_drop, take_of_length_le (l := b.buf.drop _) (by simp; omega), take_take,
      min_eq_left (by omega)]

/-- One lap off both indices is enough. -/
theorem normalize_spec (hle : b._start ≤ b._stop) (hstart : b._start < 2 * b.buf.length)
    (hsize : b.size ≤ b.buf.length) :
    ∃ b', b.normalize = some b' ∧ b'.Inv ∧ b'.buf.length = b.buf.length ∧
    b'.contents = b.contents := by
  rw [size] at hsize
  by_cases hlap : b._start ≥ b.buf.length
  · refine ⟨{ b with _stop := b._stop - b.buf.length, _start := b._start - b.buf.length }, ?_, ?_,
      rfl, ?_⟩
    · rw [normalize, if_pos hlap]
      exact if_pos ⟨by dsimp only; omega, by dsimp only; omega, by dsimp only; omega⟩
    · constructor <;> dsimp only [size] <;> omega
    · have hring : b.buf.rotate (b._stop - b.buf.length) = b.buf.rotate b._stop := by
        rw [← rotate_mod, ← mod_eq_sub_mod (by omega), rotate_mod]
      simp only [contents, ring, size, hring]
      congr 2
      omega
  · refine ⟨b, ?_, ?_, rfl, rfl⟩
    · rw [normalize, if_neg hlap]
      exact if_pos ⟨by omega, by omega, hle⟩
    · exact ⟨hle, by omega, by omega, hsize⟩

theorem read_eq (h : b.Inv) (hlen : len ≤ b.size) :
    ∃ b', b.read len = some (b', b.contents.take len) ∧ b'.Inv ∧ b'.buf.length = b.buf.length ∧
    b'.contents = b.contents.drop len := by
  obtain ⟨hle, hstart, hstop, hsize⟩ := h
  have hlen' : len ≤ b._stop - b._start := hlen
  obtain ⟨b', hnormal, hinv, hlength, hcontents⟩ :=
    normalize_spec (b := { b with _start := b._start + len }) (by dsimp only; omega)
      (by dsimp only; omega) (by simp only [size] at hsize ⊢; omega)
  refine ⟨b', ?_, hinv, hlength, hcontents.trans ?_⟩
  · rw [read, peek_eq ⟨hle, hstart, hstop, hsize⟩ (by omega), Option.bind_some, hnormal]
    rfl
  · simp only [contents, drop_drop, ring]
    congr 1
    simp only [size] at hsize hlen ⊢
    omega

/-! ## Writes -/

/-- Seen from the first cell written, a copy takes the place of the first cells, also when it
wraps. -/
theorem rotate_copyTo (hn : n < buf.length) (hfits : xs.length ≤ buf.length) :
    (copyTo (copyTo buf n (xs.take (min (buf.length - n) xs.length))) 0
      (xs.drop (min (buf.length - n) xs.length))).rotate n =
      xs ++ (buf.rotate n).drop xs.length := by
  rw [rotate_eq_drop_append_take hn.le]
  have htake : (buf.take n).length = n := by rw [length_take, min_eq_left hn.le]
  by_cases hwrap : xs.length ≤ buf.length - n
  · rw [min_eq_right hwrap, take_length, drop_length,
      drop_append_of_le_length (by simpa using hwrap), drop_drop]
    change ((buf.take n ++ xs) ++ buf.drop (n + xs.length)).rotate n = _
    rw [append_assoc, rotate_eq_drop_append_take (by simp; omega), drop_left' htake,
      take_left' htake, append_assoc]
  · -- the head goes up to the last cell, the tail is at the first cells
    obtain ⟨k, hk⟩ : ∃ k, k = buf.length - n := ⟨_, rfl⟩
    have htail : (xs.drop k ++ (buf.take n).drop (xs.length - k)).length = n := by
      rw [length_append, length_drop, length_drop, htake]
      omega
    rw [← hk, min_eq_left (by omega)]
    calc (copyTo (copyTo buf n (xs.take k)) 0 (xs.drop k)).rotate n
        = ((xs.drop k ++ (buf.take n).drop (xs.length - k)) ++ xs.take k).rotate n := by
          have hlength : (xs.take k).length = k := by rw [length_take, min_eq_left (by omega)]
          rw [copyTo, copyTo, hlength, drop_of_length_le (by omega), append_nil, take_zero,
            nil_append, Nat.zero_add, length_drop, drop_append_of_le_length (by omega),
            append_assoc]
      _ = xs.take k ++ (xs.drop k ++ (buf.take n).drop (xs.length - k)) := by
          rw [rotate_eq_drop_append_take (by rw [length_append]; omega), drop_left' htail,
            take_left' htail]
      _ = xs ++ (buf.drop n ++ buf.take n).drop xs.length := by
          rw [← append_assoc, take_append_drop, drop_append, length_drop, ← hk,
            drop_of_length_le (l := buf.drop n) (by rw [length_drop]; omega), nil_append]

theorem length_copyTo (h : n + xs.length ≤ buf.length) : (copyTo buf n xs).length = buf.length := by
  simp only [copyTo, length_append, length_take, length_drop]
  omega

/-- The elements that fit after a write are the last ones. -/
theorem rtake_shift {cells : List α} {c : ℕ} (hcells : cells.length = c) (hn : n ≤ c)
    (hfits : xs.length ≤ c) :
    (cells.drop xs.length ++ xs).drop (c - min c (n + xs.length)) =
    (cells.drop (c - n) ++ xs).rtake c := by
  have hlength : (cells.drop (c - n) ++ xs).length = n + xs.length := by
    rw [length_append, length_drop]
    omega
  rw [rtake.eq_def, hlength]
  rw [drop_append_of_le_length (by rw [length_drop]; omega), drop_drop,
    drop_append_of_le_length (by rw [length_drop]; omega), drop_drop]
  congr 2
  omega

theorem writeFitting_eq (h : b.Inv) (hfits : xs.length ≤ b.buf.length) :
    ∃ b', b.writeFitting xs = some b' ∧ b'.Inv ∧ b'.buf.length = b.buf.length ∧
    b'.contents = (b.contents ++ xs).rtake b.buf.length := by
  obtain ⟨hle, hstart, hstop, hsize⟩ := h
  have hpos : 0 < b.buf.length := zero_lt_of_lt hstart
  have hnext : b._stop % b.buf.length < b.buf.length := mod_lt _ hpos
  obtain ⟨buf, hbuf⟩ : ∃ buf, buf = copyTo (copyTo b.buf (b._stop % b.buf.length)
      (xs.take (min (b.buf.length - b._stop % b.buf.length) xs.length))) 0
      (xs.drop (min (b.buf.length - b._stop % b.buf.length) xs.length)) := ⟨_, rfl⟩
  have hlength : buf.length = b.buf.length := by
    rw [hbuf, length_copyTo, length_copyTo]
    · rw [length_take]
      omega
    · rw [length_copyTo, length_drop]
      · omega
      · rw [length_take]
        omega
  -- the ring moves on by the length of the write
  have hring : buf.rotate (b._stop + xs.length) = b.ring.drop xs.length ++ xs := by
    have hfirst := rotate_copyTo hnext hfits
    rw [← hbuf, rotate_mod, ← hlength, rotate_mod] at hfirst
    rw [← rotate_rotate, hfirst, rotate_append_length_eq]
    rfl
  obtain ⟨b₁, hb₁⟩ : ∃ b₁ : CircleBuf α, b₁ = if b._stop + xs.length - b._start > buf.length then
      ⟨buf, b._stop + xs.length - buf.length, b._stop + xs.length⟩
        else ⟨buf, b._start, b._stop + xs.length⟩ := ⟨_, rfl⟩
  have hcases : b₁.buf = buf ∧ b₁._stop = b._stop + xs.length ∧ b₁._start ≤ b₁._stop ∧
      b₁._start < 2 * buf.length ∧ b₁.size = min b.buf.length (b.size + xs.length) := by
    rw [hb₁]
    split <;> refine ⟨rfl, rfl, ?_, ?_, ?_⟩ <;> dsimp only [size] at * <;> omega
  obtain ⟨hbuf₁, hstop₁, hle₁, hstart₁, hsize₁⟩ := hcases
  obtain ⟨b', hnormal, hinv, hlength', hcontents⟩ :=
    normalize_spec hle₁ (by rw [hbuf₁]; exact hstart₁) (by rw [hbuf₁]; omega)
  refine ⟨b', ?_, hinv, by rw [hlength', hbuf₁, hlength], hcontents.trans ?_⟩
  · rw [writeFitting, ← hbuf, ← hnormal, hb₁]
    rfl
  · rw [contents, ring, hbuf₁, hstop₁, hring, hsize₁, hlength]
    exact rtake_shift (length_rotate _ _) hsize hfits

theorem rtake_append_rtake (l xs : List α) (c : ℕ) :
    (l ++ xs.rtake c).rtake c = (l ++ xs).rtake c := by
  simp only [rtake_eq_reverse_take_reverse, reverse_append, reverse_reverse, take_append, take_take,
    min_self, length_take]
  congr 3
  omega

theorem rtake_rtake_append (l xs : List α) (c : ℕ) :
    (l.rtake c ++ xs).rtake c = (l ++ xs).rtake c := by
  simp only [rtake_eq_reverse_take_reverse, reverse_append, reverse_reverse, take_append, take_take]
  congr 3
  omega

theorem write_eq (h : b.Inv) (xs : List α) : ∃ b', b.write xs = some b' ∧ b'.Inv ∧
    b'.buf.length = b.buf.length ∧ b'.contents = (b.contents ++ xs).rtake b.buf.length := by
  have hlast : (if xs.length > b.buf.length then xs.drop (xs.length - b.buf.length) else xs) =
      xs.rtake b.buf.length := by
    rw [rtake.eq_def]
    split
    · rfl
    · rw [Nat.sub_eq_zero_of_le (by omega), drop_zero]
  have hfits : (xs.rtake b.buf.length).length ≤ b.buf.length := by
    rw [rtake.eq_def, length_drop]
    omega
  rw [write, hlast, ← rtake_append_rtake]
  exact writeFitting_eq h hfits

/-! ## Runs -/

/-- The buffer stores what the stream says. -/
structure Stores (c : ℕ) (b : CircleBuf α) (s : Stream α) : Prop where
  inv : b.Inv
  capacity : b.buf.length = c
  contents : b.contents = s.stored c
  passed : s.passed ≤ s.written.length

variable {c : ℕ}

theorem stores_empty (hpos : 0 < buf.length) : Stores buf.length ⟨buf, 0, 0⟩ ({} : Stream α) := by
  refine ⟨⟨le_rfl, hpos, Nat.mul_pos Nat.two_pos hpos, Nat.zero_le _⟩, rfl, ?_, le_rfl⟩
  have hnone : (CircleBuf.contents ⟨buf, 0, 0⟩).length = 0 := by
    simp [CircleBuf.contents, ring, size]
  have hstored : Stream.stored buf.length ({} : Stream α) = [] := rtake_nil _
  rw [length_eq_zero_iff.1 hnone, hstored]

theorem Stores.peek (h : Stores c b s) (hlen : offset + len ≤ b.size) :
    b.peek offset len = some (((s.stored c).drop offset).take len) := by
  rw [peek_eq h.inv hlen, h.contents]

/-- What is stored are the last elements written. -/
theorem stored_suffix (c : ℕ) (s : Stream α) : s.stored c <:+ s.written := by
  exact (drop_suffix _ _).trans (drop_suffix _ _)

theorem stored_read (h : Stores c b s) (len : ℕ) :
    (s.call c (.read len)).stored c = (s.stored c).drop len := by
  have hlength : (s.stored c).length ≤ c := by
    rw [← h.contents, length_contents h.inv, ← h.capacity]
    exact h.inv.size_le
  have hunread : (s.call c (.read len)).unread = (s.stored c).drop len := by
    change s.written.drop (s.written.length - (s.stored c).length + len) = _
    rw [← drop_drop, ← suffix_iff_eq_drop.1 (stored_suffix c s)]
  rw [Stream.stored, hunread, rtake.eq_def, length_drop, Nat.sub_eq_zero_of_le (by omega),
    drop_zero]

theorem Stores.call (h : Stores c b s) {d : Call α} (hwithin : d.Within b.size) :
    ∃ b', b.call d = some (b', s.output c d) ∧ Stores c b' (s.call c d) := by
  have hcontents := h.contents
  cases d with
  | write xs =>
    obtain ⟨b', hwrite, hinv, hlength, hnew⟩ := write_eq h.inv xs
    refine ⟨b', by rw [CircleBuf.call, hwrite]; rfl, hinv, hlength.trans h.capacity, ?_, ?_⟩
    · have hunread : (s.call c (.write xs)).unread = s.unread ++ xs :=
        drop_append_of_le_length h.passed
      rw [hnew, h.capacity, hcontents, Stream.stored, rtake_rtake_append, Stream.stored, hunread]
    · exact h.passed.trans (by simp [Stream.call])
  | read len =>
    obtain ⟨b', hread, hinv, hlength, hrest⟩ := read_eq h.inv hwithin
    refine ⟨b', by rw [CircleBuf.call, hread, hcontents]; rfl, hinv, hlength.trans h.capacity,
      ?_, ?_⟩
    · rw [hrest, hcontents, stored_read h]
    · have hle := (stored_suffix c s).length_le
      have hlen : len ≤ (s.stored c).length := by rwa [← hcontents, length_contents h.inv]
      simp only [Stream.call]
      omega
  | peek offset len =>
    refine ⟨b, ?_, h⟩
    rw [CircleBuf.call, h.peek hwithin]
    rfl
  | flush => exact ⟨b.flush, rfl, h.capacity ▸ stores_empty (zero_lt_of_lt h.inv.start_lt)⟩

theorem Stores.run {calls : List (Call α)} :
    ∀ {b : CircleBuf α} {s : Stream α}, Stores c b s → s.Within c calls →
    ∃ b', b.run calls = some (b', s.outputs c calls) ∧
    Stores c b' (calls.foldl (Stream.call c) s) := by
  induction calls with
  | nil => exact fun {b _} h _ => ⟨b, rfl, h⟩
  | cons d calls ih =>
    intro b s h hwithin
    have hsize : (s.stored c).length = b.size := by rw [← h.contents, length_contents h.inv]
    obtain ⟨b₁, hcall, h₁⟩ := h.call (hsize ▸ hwithin.1)
    obtain ⟨b', hrun, h'⟩ := ih h₁ hwithin.2
    refine ⟨b', ?_, h'⟩
    rw [CircleBuf.run, hcall, Option.bind_some, hrun]
    rfl

/-- For all capacities and all sequences of calls that read and peek within the stored size, no
assertion fails, each call copies out what it should, the documented invariants hold, and the
contents are the last `c` elements of those written after the last one that was read, or all of them
if there are fewer. -/
theorem stores_last_written (buf : List α) (hpos : 1 ≤ buf.length) (calls : List (Call α))
    (hwithin : Stream.Within buf.length {} calls) :
    ∃ b' stored, run { buf := buf } calls = some (b', Stream.outputs buf.length {} calls) ∧
      b'._start ≤ b'._stop ∧ b'._start < buf.length ∧ b'._stop < 2 * buf.length ∧
      stored = (calls.foldl (Stream.call buf.length) {}).stored buf.length ∧
      b'.size = stored.length ∧ ∀ offset len, offset + len ≤ stored.length →
      b'.peek offset len = some ((stored.drop offset).take len) := by
  obtain ⟨b', hrun, h⟩ := (stores_empty hpos).run hwithin
  have hsize := length_contents h.inv
  rw [h.contents] at hsize
  refine ⟨b', _, hrun, h.inv.start_le, h.capacity ▸ h.inv.start_lt, h.capacity ▸ h.inv.stop_lt, rfl,
    hsize.symm, ?_⟩
  intro offset len hlen
  exact h.peek (hsize ▸ hlen)

/-- A write that overwrites what was not read, and a read across the end of the store. -/
theorem stores_last_written_wrap :
    Stream.Within 4 {} [.write [1, 2, 3], .read 1, .write [4, 5, 6], .read 3] ∧
      ∃ b', run { buf := [0, 0, 0, 0] } [.write [1, 2, 3], .read 1, .write [4, 5, 6], .read 3]
        = some (b', [[], [1], [], [3, 4, 5]]) := by
  have hwithin : Stream.Within 4 {} [.write [1, 2, 3], .read 1, .write [4, 5, 6], .read 3] := by
    decide
  obtain ⟨b', _, hrun, -⟩ := stores_last_written [0, 0, 0, 0] (by decide) _ hwithin
  exact ⟨hwithin, b', hrun⟩

/-- Of six elements two are overwritten and two are read. The overwritten ones do not come back: two
are stored, where four have been written and not read. -/
theorem overwritten_are_lost :
    ∃ b', run { buf := [0, 0, 0, 0] } [.write [1, 2, 3, 4, 5, 6], .read 2] =
      some (b', [[], [3, 4]]) ∧ b'.size ≠ min 4 (6 - 2) :=
  ⟨_, rfl, by decide⟩

end CircleBuf

end EnocGem5.Base
