import EnocGem5.Lib.Run

/-!
# PacketFifo — positions in a FIFO of packets

`dev/net/pktfifo.hh` numbers the entries as they are pushed and computes the position of an entry
from the numbers. The bytes of an entry that is removed from the middle become slack of the entry
before it. An iterator is the index of its entry; `sinic.cc` saves one as a position.
-/

namespace EnocGem5.Dev

open Lib List Option

structure PacketFifoEntry where
  length : ℕ
  number : ℕ
  slack : ℕ := 0

structure PacketFifo where
  fifo : List PacketFifoEntry := []
  counter : ℕ := 0
  maxsize : ℕ
  size : ℕ := 0
  reserved : ℕ := 0

namespace PacketFifo

variable (F : PacketFifo)

def avail : ℕ := F.maxsize - F.size - F.reserved

def reserve (len : ℕ) : Option PacketFifo :=
  if len ≤ F.avail then some { F with reserved := F.reserved + len } else none

def push (length : ℕ) : Option PacketFifo :=
  if length ≠ 0 ∧ F.reserved ≤ length then
    if F.avail < length - F.reserved then some F
    else some { F with
      fifo := F.fifo ++ [⟨length, F.counter, 0⟩]
      counter := F.counter + 1
      size := F.size + length
      reserved := 0 }
  else none

/-- The entry behind the one at `i` is erased, and its bytes become slack. -/
def absorb : ℕ → List PacketFifoEntry → List PacketFifoEntry
  | 0, prev :: e :: after => { prev with slack := prev.slack + e.length + e.slack } :: after
  | i + 1, e :: after => e :: absorb i after
  | _, l => l

/-- `remove` of the first entry, and `pop`. -/
def removeFirst : PacketFifo :=
  match F.fifo with
  | [] => F
  | e :: after => { F with fifo := after, size := F.size - e.length - e.slack }

def pop : PacketFifo := if F.size = 0 then F else F.removeFirst

def remove (i : ℕ) : Option PacketFifo :=
  if i < F.fifo.length then
    match i with
    | 0 => some F.removeFirst
    | i + 1 => some { F with fifo := absorb i F.fifo }
  else none

def clear : PacketFifo := { F with fifo := [], size := 0, reserved := 0 }

def countPacketsBefore (i : ℕ) : ℤ :=
  match F.fifo[i]?, F.fifo.head? with
  | some e, some front => e.number - front.number
  | _, _ => 0

def countPacketsAfter (i : ℕ) : ℤ :=
  match F.fifo[i]?, F.fifo.getLast? with
  | some e, some last => last.number - e.number
  | _, _ => 0

/-- `rxFifoPtr` in a checkpoint; `none` is `end()`. -/
def serialize (rxFifoPtr : Option ℕ) : ℤ := rxFifoPtr.elim (-1) F.countPacketsBefore

def unserialize (rxFifoPtr : ℤ) : Option ℕ := if 0 ≤ rxFifoPtr then some rxFifoPtr.toNat else none

inductive Call
  | push (length : ℕ)
  | pop
  | remove (i : ℕ)
  | reserve (len : ℕ)
  | clear

def step (F : PacketFifo) : Call → Option PacketFifo
  | .push length => F.push length
  | .pop => some F.pop
  | .remove i => F.remove i
  | .reserve len => F.reserve len
  | .clear => some F.clear

/-! ## Sizes and positions -/

structure Accounted : Prop where
  size : F.size = (F.fifo.map fun e => e.length + e.slack).sum
  bounded : F.size + F.reserved ≤ F.maxsize

structure Located : Prop where
  before : ∀ i < F.fifo.length, F.countPacketsBefore i = i
  after : ∀ i < F.fifo.length, F.countPacketsAfter i = F.fifo.length - 1 - i
  saved : ∀ ptr : Option ℕ, (∀ i ∈ ptr, i < F.fifo.length) → unserialize (F.serialize ptr) = ptr

/-- Entries are removed at the ends, and nothing is pushed behind a last entry whose successor was
removed. -/
def AtEnds : Call → Prop
  | .push length => F.avail < length - F.reserved ∨
    ∀ last ∈ F.fifo.getLast?, last.number + 1 = F.counter
  | .remove i => i = 0 ∨ i + 1 = F.fifo.length
  | _ => True

variable {F} {F' : PacketFifo}

def Follows (a b : PacketFifoEntry) : Prop := a.number + 1 = b.number

section Numbers

variable {i : ℕ} (hi : i < F.fifo.length) (hfirst : 0 < F.fifo.length)

theorem countPacketsBefore_eq : F.countPacketsBefore i = F.fifo[i].number - F.fifo[0].number := by
  simp [countPacketsBefore, head?_eq_getElem?, hi, hfirst]

theorem number_eq (h : F.fifo.IsChain Follows) : F.fifo[i].number = F.fifo[0].number + i := by
  induction i with
  | zero => rfl
  | succ i ih =>
    have hnext : Follows F.fifo[i] F.fifo[i + 1] := isChain_iff_getElem.1 h i hi
    rw [← hnext, ih (by omega)]
    rfl

end Numbers

/-- The entries are numbered one after the other. -/
theorem located_iff : F.Located ↔ F.fifo.IsChain Follows := by
  constructor
  · intro h
    refine isChain_iff_getElem.2 fun i hi => ?_
    have hthis := (countPacketsBefore_eq (by omega) (by omega)).symm.trans (h.before i (by omega))
    have hnext := (countPacketsBefore_eq hi (by omega)).symm.trans (h.before (i + 1) hi)
    unfold Follows
    omega
  · intro h
    have hbefore : ∀ i < F.fifo.length, F.countPacketsBefore i = i := by
      intro i hi
      have hthis := number_eq hi (by omega) h
      rw [countPacketsBefore_eq hi (by omega)]
      omega
    refine ⟨hbefore, fun i hi => ?_, fun ptr hptr => ?_⟩
    · have hlast : F.fifo.length - 1 < F.fifo.length := by omega
      have hthis := number_eq hi (by omega) h
      have hend := number_eq hlast (by omega) h
      simp only [countPacketsAfter, getLast?_eq_getElem?, getElem?_eq_getElem hi,
        getElem?_eq_getElem hlast]
      omega
    · cases ptr with
      | none => rfl
      | some i => simp [serialize, unserialize, hbefore i (hptr i rfl)]

theorem isChain_absorb {i : ℕ} {l : List PacketFifoEntry} (h : l.IsChain Follows)
    (hi : i + 1 < l.length) : (absorb i l).IsChain Follows ↔ i + 2 = l.length := by
  fun_induction absorb i l with
  | case1 prev e after =>
    cases after with
    | nil => simp
    | cons next after =>
      have hprev : Follows prev e := (isChain_cons_cons.1 h).1
      have hnext : Follows e next := (isChain_cons_cons.1 (isChain_cons_cons.1 h).2).1
      refine iff_of_false (fun hgap => ?_) (by simp)
      have hskip : prev.number + 1 = next.number := (isChain_cons_cons.1 hgap).1
      unfold Follows at hprev hnext
      omega
  | case2 i e after ih =>
    rcases isChain_cons.1 h with ⟨hhead, htail⟩
    have hkept : ∀ y ∈ (absorb i after).head?, Follows e y := by
      intro y hy
      have hnumber : (absorb i after).head?.map (·.number) = after.head?.map (·.number) := by
        fun_cases absorb i after <;> rfl
      rw [Option.mem_def.1 hy] at hnumber
      rcases Option.map_eq_some_iff.1 hnumber.symm with ⟨x, hx, hxy⟩
      exact (hhead x hx).trans hxy
    rw [isChain_cons, and_iff_right hkept, ih htail (by simpa using hi)]
    simp
  | case3 i l hnot hnot' =>
    rcases l with _ | ⟨a, _ | ⟨b, l⟩⟩
    · simp at hi
    · simp at hi
    · cases i <;> simp_all

theorem sum_absorb (i : ℕ) (l : List PacketFifoEntry) :
    ((absorb i l).map fun e => e.length + e.slack).sum =
    (l.map fun e => e.length + e.slack).sum := by
  fun_induction absorb i l with
  | case1 prev e after =>
    simp only [map_cons, sum_cons]
    omega
  | case2 i e after ih => simp [ih]
  | case3 => rfl

theorem removeFirst_spec (h : F.Accounted) :
    F.removeFirst.Accounted ∧ (F.fifo.IsChain Follows → F.removeFirst.fifo.IsChain Follows) := by
  rcases h with ⟨hsize, hbounded⟩
  unfold removeFirst
  split
  case h_1 => exact ⟨⟨hsize, hbounded⟩, id⟩
  case h_2 e after hcons =>
    rw [hcons, map_cons, sum_cons] at hsize
    exact ⟨⟨by dsimp only; omega, by dsimp only; omega⟩, fun hchain => (hcons ▸ hchain).tail⟩

theorem step_spec {c : Call} (h : F.Accounted) (hstep : F.step c = some F') :
    F'.Accounted ∧ (F.fifo.IsChain Follows → (F'.fifo.IsChain Follows ↔ F.AtEnds c)) := by
  have hsize := h.size
  have hbounded := h.bounded
  cases c with
  | push length =>
    rcases Option.ite_none_right_eq_some.1 hstep with ⟨-, hstep⟩
    split at hstep
    case isTrue hfull =>
      cases hstep
      exact ⟨h, fun hchain => iff_of_true hchain (.inl hfull)⟩
    case isFalse hroom =>
      cases hstep
      refine ⟨⟨by simp [hsize], ?_⟩,
        fun hchain => by simp [isChain_append, hchain, AtEnds, hroom, Follows]⟩
      unfold avail at hroom
      dsimp only
      omega
  | pop =>
    cases hstep
    unfold pop
    split
    · exact ⟨h, fun hchain => iff_of_true hchain trivial⟩
    · exact (removeFirst_spec h).imp_right fun hrest hchain => iff_of_true (hrest hchain) trivial
  | remove i =>
    rcases Option.ite_none_right_eq_some.1 hstep with ⟨hi, hstep⟩
    split at hstep
    case h_1 =>
      cases hstep
      exact (removeFirst_spec h).imp_right fun hrest hchain => iff_of_true (hrest hchain) (.inl rfl)
    case h_2 i =>
      cases hstep
      exact ⟨⟨hsize.trans (sum_absorb _ _).symm, hbounded⟩,
        fun hchain => by simp [isChain_absorb hchain hi, AtEnds]⟩
  | reserve len =>
    rcases Option.ite_none_right_eq_some.1 hstep with ⟨hroom, hstep⟩
    cases hstep
    unfold avail at hroom
    exact ⟨⟨hsize, by dsimp only; omega⟩, fun hchain => iff_of_true hchain trivial⟩
  | clear =>
    cases hstep
    exact ⟨⟨rfl, Nat.zero_le _⟩, fun _ => iff_of_true .nil trivial⟩

/-- Sizes are right in every run, and positions exactly while no removal leaves a gap between the
numbers. -/
theorem located_iff_atEnds (maxsize : ℕ) (calls : List Call) :
    Always step Accounted { maxsize } calls ∧
      (Always step Located { maxsize } calls ↔ Throughout step AtEnds { maxsize } calls) := by
  have hstart : Accounted { maxsize } := ⟨rfl, Nat.zero_le _⟩
  have hinv : ∀ F c F', Accounted F → step F c = some F' → Accounted F' :=
    fun _ _ _ h hstep => (step_spec h hstep).1
  refine ⟨Always.of_invariant (fun _ => id) hinv hstart,
    always_iff_throughout hinv ?_ hstart (located_iff.2 .nil)⟩
  intro F c F' h hlocated hstep
  rw [located_iff]
  exact (step_spec h hstep).2 (located_iff.1 hlocated)

/-- The last of three entries is taken to be at position 2 when the middle one has been removed. -/
theorem gap_in_numbers :
    ¬Always step Located { maxsize := 9 } [.push 1, .push 1, .push 1, .remove 1] := by
  intro h
  have hlast : Located ⟨[⟨1, 0, 1⟩, ⟨1, 2, 0⟩], 3, 9, 3, 0⟩ := h.last rfl
  exact absurd (hlast.before 1 (by decide)) (by decide)

end PacketFifo

end EnocGem5.Dev
