import EnocGem5.Noc.Flit

/-!
# Flips — transitions on the lines of a link

`Calc_Flips` counts the lines of a link that change for a flit, in two signaling modes and with two
encodings. A link has 34 lines; a flit is given with the payload it carries as a body.
-/

namespace EnocGem5.Noc

open List

inductive Signaling
  | level
  | transition

inductive Encoding
  | binary
  | busInvert

def from8bitINT (c : ℤ) (i : ℕ) : Bool := (c % 2 ^ 8).toNat.testBit i

def from32bitINT (c : UInt32) (i : ℕ) : Bool := c.toNat.testBit i

def getBitsOfFlits : Option (Flit × UInt32) → ℕ → Bool
  | none, _ => false
  | some (flit, payload), i =>
    match flit.flitType with
    | .head => if i < 8 then from8bitINT flit.srcId i
      else if i < 16 then from8bitINT flit.dstId (i - 8) else i = 32
    | .body => i < 32 && from32bitINT payload i
    | .tail => i = 33

def countLines (p : ℕ → Bool) : ℕ := (range 34).countP p

/-- `~` on a `bool`, which is promoted to `int` before and converted after. -/
def complement (b : Bool) : Bool := ~~~(b.toNat : ℤ) ≠ 0

/-- What `Calc_Flips` adds to `flipNumber`. -/
def calcFlips (signaling : Signaling) (encoding : Encoding) (cur : Flit × UInt32)
    (last : Option (Flit × UInt32)) : ℕ :=
  let flitBits := getBitsOfFlits (some cur)
  let lastFlitBits := getBitsOfFlits last
  match signaling, encoding with
  | .level, .binary => countLines fun i => flitBits i != lastFlitBits i
  | .level, .busInvert =>
    let nFlip := countLines fun i => flitBits i != lastFlitBits i
    let notNFlip := countLines fun i => complement (flitBits i) != lastFlitBits i
    if notNFlip < nFlip then notNFlip else nFlip
  | .transition, .binary => countLines flitBits
  | .transition, .busInvert =>
    let nFlip := countLines flitBits
    let notNFlip := countLines fun i => !flitBits i
    if notNFlip < nFlip then notNFlip else nFlip

/-- Bus-invert coding takes the cheaper of a word and its complement. -/
def Optimal (signaling : Signaling) (cur : Flit × UInt32) (last : Option (Flit × UInt32)) : Prop :=
  let h := calcFlips signaling .binary cur last
  calcFlips signaling .busInvert cur last = min h (34 - h) ∧
    calcFlips signaling .busInvert cur last ≤ 17

theorem countLines_not (p : ℕ → Bool) : countLines p + countLines (fun i => !p i) = 34 := by
  have h := length_eq_countP_add_countP p (l := range 34)
  simpa [countLines] using h.symm

/-- With level signaling the complemented word is all ones, so that its transitions are the lines
that were 0. -/
theorem optimal_iff (cur : Flit × UInt32) (last : Option (Flit × UInt32)) :
    Optimal .transition cur last ∧
      (Optimal .level cur last ↔
        let h := calcFlips .level .binary cur last
        let zeros := countLines fun i => !getBitsOfFlits last i
        (h ≤ 17 ∧ h ≤ zeros) ∨ h + zeros = 34) := by
  constructor
  · have := countLines_not (getBitsOfFlits (some cur))
    simp only [Optimal, calcFlips]
    split_ifs <;> omega
  · have hones : ∀ b, complement b = true := by decide
    have hle : countLines (fun i => getBitsOfFlits (some cur) i != getBitsOfFlits last i) ≤ 34 :=
      (countP_le_length ..).trans_eq length_range
    simp only [Optimal, calcFlips, hones, Bool.true_bne]
    split_ifs <;> omega

def bodyFlit : Flit where
  uid := 0
  pkt := 0
  idx := 1
  srcId := 0
  dstId := 0
  flitType := .body
  sequenceNo := 1
  timestamp := 0
  packetType := 0
  vc := 0
  outputPort := 0

/-- 32 ones on a link that was 0 cost 32 transitions, where 2 would do. -/
theorem allOnes_costs : calcFlips .level .binary (bodyFlit, -1) none = 32 ∧
    calcFlips .level .busInvert (bodyFlit, -1) none = 32 ∧ ¬ Optimal .level (bodyFlit, -1) none :=
  ⟨by decide, by decide, fun h => absurd h.2 (by decide)⟩

end EnocGem5.Noc
