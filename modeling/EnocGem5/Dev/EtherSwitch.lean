import EnocGem5.Lib.Run

/-!
# EtherSwitch — where a frame goes

The switch of `dev/net/etherswitch.cc` learns on which port an address is, and sends frames for it
there. It floods the other frames. A table entry ages, and its port never changes: it is learned
again only after a frame for the address has found it expired. Frames come at ticks that do not
decrease.
-/

namespace EnocGem5.Dev

open Lib List Function Option

abbrev EthAddr := BitVec 48

namespace EthAddr

variable (a : EthAddr)

def unicast : Bool := !a.getLsbD 40

def broadcast : Bool := a = BitVec.allOnes 48

def multicast : Bool := !unicast a && !broadcast a

theorem group_eq : (multicast a || broadcast a) = !unicast a := by
  cases h : broadcast a with
  | false => simp [multicast, h]
  | true => simp [unicast, of_decide_eq_true h]

end EthAddr

/-- A switch with `n` ports. -/
structure SwitchTableEntry (n : ℕ) where
  interface : Fin n
  lastUseTime : ℕ

structure Frame (n : ℕ) where
  port : Fin n
  src : EthAddr
  dest : EthAddr
  /-- The ticks since the frame before. -/
  delay : ℕ

/-- `heard` is a history: the port and the tick of the last frame from an address. -/
structure EtherSwitch (n : ℕ) where
  forwardingTable : EthAddr → Option (SwitchTableEntry n) := fun _ => none
  curTick : ℕ := 0
  heard : EthAddr → Option (Fin n × ℕ) := fun _ => none

namespace EtherSwitch

variable {n : ℕ} (ttl : ℕ) (S : EtherSwitch n) (f : Frame n)

def learnSenderAddr : EtherSwitch n :=
  let curTick := S.curTick + f.delay
  let interface := ((S.forwardingTable f.src).map (·.interface)).getD f.port
  { forwardingTable := update S.forwardingTable f.src (some ⟨interface, curTick⟩)
    curTick
    heard := update S.heard f.src (some (f.port, curTick)) }

def lookupDestPort (dest : EthAddr) : EtherSwitch n × Option (Fin n) :=
  match S.forwardingTable dest with
  | none => (S, none)
  | some e =>
    if S.curTick - e.lastUseTime > ttl
      then ({ S with forwardingTable := update S.forwardingTable dest none }, none)
    else (S, some e.interface)

def others (port : Fin n) : List (Fin n) := (finRange n).filter (· ≠ port)

/-- The second part are the ports on which the frame is enqueued. -/
def recvPacket : EtherSwitch n × List (Fin n) :=
  let found := (S.learnSenderAddr f).lookupDestPort ttl f.dest
  (found.1, match found.2 with
    | none => others f.port
    | some port => if f.dest.multicast || f.dest.broadcast then others f.port else [port])

def step : Option (EtherSwitch n) := some (S.recvPacket ttl f).1

/-- The destination is a station that was heard within `ttl` ticks, on the port. -/
def HeardOn (dest : EthAddr) (port : Fin n) : Prop :=
  dest.unicast = true ∧ ∃ t, S.heard dest = some (port, t) ∧ S.curTick - t ≤ ttl

/-- What should happen to a frame, which counts for what was heard itself. -/
def Forwards : Prop :=
  let S' := S.learnSenderAddr f
  (∀ port, S'.HeardOn ttl f.dest port → (S.recvPacket ttl f).2 = [port]) ∧
    ((∀ port, ¬ S'.HeardOn ttl f.dest port) → (S.recvPacket ttl f).2 = others f.port) ∧
    f.port ∉ (S.recvPacket ttl f).2

/-- An entry for the destination that has not expired is on the port where the address was heard
last, and not on the port of the frame. -/
def Settled : Prop :=
  let S' := S.learnSenderAddr f
  ∀ e ∈ S'.forwardingTable f.dest, f.dest.unicast = true → S'.curTick - e.lastUseTime ≤ ttl →
    S'.heard f.dest = some (e.interface, e.lastUseTime) ∧ e.interface ≠ f.port

/-- Entries tell when an address was heard last; addresses without an entry were not heard, or too
long ago. -/
structure Inv : Prop where
  entry : ∀ a, ∀ e ∈ S.forwardingTable a, ∃ port, S.heard a = some (port, e.lastUseTime)
  expired : ∀ a, S.forwardingTable a = none → ∀ x ∈ S.heard a, ttl < S.curTick - x.2

variable {ttl S f}

theorem Inv.learnSenderAddr (h : Inv ttl S) : Inv ttl (S.learnSenderAddr f) := by
  constructor
  · intro a e he
    rcases eq_or_ne a f.src with rfl | hne
    · simp only [EtherSwitch.learnSenderAddr, update_self, mem_some_iff] at he ⊢
      exact ⟨f.port, by rw [← he]⟩
    · simp only [EtherSwitch.learnSenderAddr, update_of_ne hne] at he ⊢
      exact h.entry a e he
  · intro a hnone x hx
    rcases eq_or_ne a f.src with rfl | hne
    · simp [EtherSwitch.learnSenderAddr] at hnone
    · simp only [EtherSwitch.learnSenderAddr, update_of_ne hne] at hnone hx ⊢
      have hold := h.expired a hnone x hx
      omega

theorem Inv.lookupDestPort (h : Inv ttl S) (dest : EthAddr) :
    Inv ttl (S.lookupDestPort ttl dest).1 := by
  rw [EtherSwitch.lookupDestPort]
  split
  · exact h
  case h_2 e he =>
    split
    · constructor
      · intro a e' he'
        rcases eq_or_ne a dest with rfl | hne
        · simp at he'
        · exact h.entry a e' (by simpa [hne] using he')
      · intro a hnone x hx
        rcases eq_or_ne a dest with rfl | hne
        · obtain ⟨port, hport⟩ := h.entry a e he
          obtain rfl : (port, e.lastUseTime) = x := some.inj (hport.symm.trans hx)
          assumption
        · exact h.expired a (by simpa [hne] using hnone) x hx
    · exact h

theorem Inv.step {S' : EtherSwitch n} (h : Inv ttl S) (hstep : S.step ttl f = some S') :
    Inv ttl S' := by
  cases hstep
  exact h.learnSenderAddr.lookupDestPort f.dest

theorem not_mem_others {port : Fin n} : port ∉ others port := by simp [others]

theorem lookupDestPort_snd (dest : EthAddr) : (S.lookupDestPort ttl dest).2 =
    (S.forwardingTable dest).bind fun e => if S.curTick - e.lastUseTime ≤ ttl then some e.interface
    else none := by
  rw [lookupDestPort]
  split
  case h_1 hnone => simp [hnone]
  case h_2 e he =>
    rw [he, bind_some]
    split
    case isTrue h => rw [if_neg (not_le.2 h)]
    case isFalse h => rw [if_pos (not_lt.1 h)]

theorem forwards_iff_settled (h : Inv ttl S) : S.Forwards ttl f ↔ S.Settled ttl f := by
  have hlearned := h.learnSenderAddr (f := f)
  simp only [Forwards, Settled, recvPacket, lookupDestPort_snd]
  generalize S.learnSenderAddr f = S' at hlearned ⊢
  cases he : S'.forwardingTable f.dest with
  | none =>
    have hnot : ∀ port, ¬ S'.HeardOn ttl f.dest port := by
      rintro port ⟨-, t, ht, hle⟩
      exact absurd hle (not_le.2 (hlearned.expired _ he _ ht))
    simp [hnot, not_mem_others]
  | some e =>
    obtain ⟨port, hport⟩ := hlearned.entry _ e he
    have hheard : ∀ p, S'.HeardOn ttl f.dest p ↔
        f.dest.unicast = true ∧ S'.curTick - e.lastUseTime ≤ ttl ∧ port = p := by
      intro p
      simp only [HeardOn, hport, some.injEq, Prod.mk.injEq]
      grind
    simp only [bind_some, hheard, EthAddr.group_eq, mem_some_iff, forall_eq', hport]
    by_cases hlive : S'.curTick - e.lastUseTime ≤ ttl
    · cases hu : f.dest.unicast with
      | false => simp [hlive, not_mem_others]
      | true => simp [hlive, eq_comm]
    · simp only [hlive, if_false]
      simp [not_mem_others]

/-- In every run entries tell when an address was heard last, and one heard within `ttl` ticks has
an entry. -/
theorem heard_run (n ttl : ℕ) (frames : List (Frame n)) :
    Always (step ttl) (Inv ttl) ({} : EtherSwitch n) frames :=
  Always.of_invariant (fun _ => id) (fun _ _ _ => Inv.step) ⟨by simp, by simp⟩

/-- In every run, all frames go where they should exactly if every unicast frame with a live entry
finds it on the port where the address was heard last, and that is not the port of the frame. -/
theorem forwards_iff (n ttl : ℕ) (frames : List (Frame n)) :
    Throughout (step ttl) (Forwards ttl) {} frames ↔
    Throughout (step ttl) (Settled ttl) {} frames := by
  have hinv : Inv ttl ({} : EtherSwitch n) := ⟨by simp, by simp⟩
  exact throughout_congr (fun _ _ _ _ h _ => Inv.step h)
    (fun _ _ _ h => forwards_iff_settled h) hinv

/-- A station is heard on port 0, and moves to port 1. A frame for it still goes to port 0. -/
theorem moved_station :
    ¬ Throughout (step 100) (Forwards 100) ({} : EtherSwitch 3) [⟨0, 2, 4, 1⟩, ⟨1, 2, 4, 1⟩,
    ⟨2, 4, 2, 1⟩] := by
  intro h
  have hframe := ((h _ rfl).2 _ rfl).2 _ rfl
  exact absurd (hframe.1.1 1 ⟨rfl, 2, rfl, by decide⟩) (by decide)

end EtherSwitch
end EnocGem5.Dev
