import EnocGem5.Noc.Links

/-!
# DelayLine — a channel of any latency

`Channel<T>` over a run in which the clock rises by one each step, with at most one `Send` between
two `ReadInputs`. The wait queue is the window of the last sends that are not due yet, with the
clocks at which they are. Every channel of the mesh is one of latency one (`step_of_clk`).
-/

namespace EnocGem5.Noc

open List

/-- `Channel<T>`, with the positive latency that `SetLatency` asks for. -/
structure TimedChannel (T : Type) where
  delay : ℕ
  input : Option T := none
  output : Option T := none
  waitQueue : List (ℤ × T) := []
  positive : 0 < delay

namespace TimedChannel

variable {T : Type} {c : TimedChannel T}

def send (data : Option T) (c : TimedChannel T) : TimedChannel T := { c with input := data }

def readInputs (globalClk : ℤ) (c : TimedChannel T) : TimedChannel T :=
  match c.input with
  | none => c
  | some f => { c with waitQueue := c.waitQueue ++ [(globalClk + c.delay - 1, f)], input := none }

/-- `none` if the assertion fails. -/
def writeOutputs (globalClk : ℤ) (c : TimedChannel T) : Option (TimedChannel T) :=
  match c.waitQueue with
  | [] => some { c with output := none }
  | (time, f) :: rest =>
    if globalClk < time then some { c with output := none }
    else if globalClk = time then some { c with output := some f, waitQueue := rest }
    else none

/-- `ReadInputs` and `WriteOutputs`, with a `Send` before the second one or after it. The input is
empty by then, so no `Send` is one of nothing. -/
def step (globalClk : ℤ) (early : Bool) (data : Option T) (c : TimedChannel T) :
    Option (TimedChannel T) :=
  let c := c.readInputs globalClk
  if early then (c.send data).writeOutputs globalClk else (c.writeOutputs globalClk).map (send data)

/-- The values of `Receive` after the steps of a run that starts at the given clock. -/
def received (globalClk : ℤ) (c : TimedChannel T) :
    List (Bool × Option T) → Option (List (Option T))
  | [] => some []
  | (early, data) :: sends =>
    (c.step globalClk early data).bind fun c => (received (globalClk + 1) c sends).map
      (c.output :: ·)

/-- The queue that holds a window of sends, of which the first one is due at the given clock. -/
def stamped (globalClk : ℤ) : List (Option T) → List (ℤ × T)
  | [] => []
  | none :: window => stamped (globalClk + 1) window
  | some f :: window => (globalClk, f) :: stamped (globalClk + 1) window

variable {t : ℤ} {window : List (Option T)}

theorem stamped_concat (data : Option T) :
    stamped t (window ++ [data]) = stamped t window ++ data.toList.map (t + window.length, ·) := by
  induction window generalizing t with
  | nil => cases data <;> simp [stamped]
  | cons x window ih => cases x <;> simp [stamped, ih, Int.add_right_comm, Int.add_assoc]

theorem le_of_mem_stamped {x : ℤ × T} (hx : x ∈ stamped t window) : t ≤ x.1 := by
  induction window generalizing t with
  | nil => cases hx
  | cons y window ih =>
    cases y with
    | none => exact Int.le_of_lt (ih hx)
    | some f =>
      rcases mem_cons.1 hx with rfl | hx
      · exact Int.le_refl t
      · exact Int.le_of_lt (ih hx)

/-- What is due at the clock is written out, and nothing else. -/
theorem writeOutputs_stamped {x : Option T} (h : c.waitQueue = stamped t (x :: window)) :
    c.writeOutputs t = some { c with output := x, waitQueue := stamped (t + 1) window } := by
  cases x with
  | some f => simp [writeOutputs, h, stamped]
  | none =>
    rw [stamped] at h
    cases hq : stamped (t + 1) window with
    | nil => simp [writeOutputs, h, hq]
    | cons y rest =>
      have hlater : t < y.1 := le_of_mem_stamped (hq ▸ mem_cons_self)
      rw [hq] at h
      simp [writeOutputs, h, hlater]

theorem received_window (hq : c.waitQueue = stamped t window) (hd : window.length + 1 = c.delay)
    (sends : List (Bool × Option T)) :
    c.received t sends = some ((window ++ c.input :: sends.map Prod.snd).take sends.length) := by
  induction sends generalizing c t window with
  | nil => rfl
  | cons send sends ih =>
    obtain ⟨early, data⟩ := send
    have hread : c.readInputs t =
        { c with input := none, waitQueue := stamped t (window ++ [c.input]) } := by
      rw [stamped_concat, ← hq]
      rcases c with ⟨delay, _ | f, output, waitQueue, positive⟩
      · simp [readInputs]
      · dsimp only at hd
        have htime : t + delay - 1 = t + window.length := by omega
        simp [readInputs, htime]
    rcases hw : window ++ [c.input] with _ | ⟨x, window'⟩
    · simp at hw
    · have hstep : c.step t early data =
          some { c with input := data, output := x, waitQueue := stamped (t + 1) window' } := by
        rw [step, hread, hw]
        cases early with
        | false =>
          rw [if_neg Bool.false_ne_true, writeOutputs_stamped rfl]
          rfl
        | true =>
          rw [if_pos rfl, writeOutputs_stamped rfl]
          rfl
      have hlen : window'.length = window.length := by simpa using (congrArg length hw).symm
      have hall : window ++ c.input :: data :: sends.map Prod.snd =
          x :: (window' ++ data :: sends.map Prod.snd) := by
        rw [append_cons, hw, cons_append]
      rw [received, hstep, Option.bind_some, ih rfl (hlen ▸ hd), map_cons, hall]
      rfl

/-- The channel is an exact delay line: what is read in at a clock is received `d - 1` clocks later
and at no other clock, and no assertion fails. -/
theorem received_eq_delayed (d : ℕ) (hd : 0 < d) (t : ℤ) (first : Option T)
    (sends : List (Bool × Option T)) :
    received t { delay := d, input := first, positive := hd } sends =
      some ((replicate (d - 1) none ++ first :: sends.map Prod.snd).take sends.length) := by
  have hempty : ∀ (n : ℕ) (t : ℤ), stamped t (replicate n (none : Option T)) = [] := by
    intro n
    induction n with
    | zero => exact fun _ => rfl
    | succ _ ih => exact fun t => ih (t + 1)
  apply received_window (hempty _ _).symm
  rw [length_replicate]
  exact Nat.sub_add_cancel hd

theorem received_three :
    received 7 { delay := 3, input := some 'a', positive := by decide }
        [(true, none), (false, some 'b'), (true, some 'c'), (true, none), (false, none)] =
      some [none, none, some 'a', none, some 'b'] :=
  received_eq_delayed 3 (by decide) 7 _ _

/-! ## The channels of the mesh -/

/-- A channel of the mesh has the latency 1. -/
def ofMesh (c : Channel) : TimedChannel Flit where
  delay := 1
  input := c.input
  output := c.output
  waitQueue := c.waitQueue
  positive := Nat.one_pos

theorem readInputs_ofMesh (t : ℤ) (c : Channel) :
    (ofMesh c).readInputs t = ofMesh (c.readInputs t) := by
  rcases c with ⟨_ | f, waitQueue, output⟩ <;> rfl

theorem step_ofMesh {c : Channel} (hc : c.Settled) (t : ℤ) (fs : List Flit) :
    (ofMesh c).step t false fs.head? =
      some (ofMesh (NetworkNoC.sendFront ((c.readInputs t).writeOutputs t) fs)) := by
  have hdue := Channel.readInputs_time (t := t) hc
  have hread := Channel.readInputs_input t c
  rw [step, readInputs_ofMesh]
  generalize c.readInputs t = c' at hdue hread
  rcases c' with ⟨input, _ | ⟨x, rest⟩, output⟩
  · cases hread
    cases fs <;> rfl
  · -- the front of the queue is due now
    cases hread
    obtain rfl : x.1 = t := hdue x mem_cons_self
    cases fs <;> simp [ofMesh, send, writeOutputs, Channel.writeOutputs, NetworkNoC.sendFront,
      Channel.send]

/-- In a cycle of the mesh every channel takes a step of the timed one, whose assertion holds. -/
theorem step_of_clk {k : ℕ} {N N' : NetworkNoC} (hN : N.Settled) (h : N.clk k t = some N')
    (c : ChanId) :
    ∃ data, (ofMesh (N.channel c)).step t false data = some (ofMesh (N'.channel c)) := by
  rcases Option.map_eq_some_iff.1 h with ⟨M, hM, rfl⟩
  have hchannel : M.channel c = (N.channel c).readInputs t :=
    congrFun (NetworkNoC.channel_clkRouters hM) c
  have hstep := step_ofMesh (hN.channel c) t
  rw [← hchannel] at hstep
  unfold NetworkNoC.writeOutputs
  dsimp only
  split
  · split
    · exact ⟨_, hstep _⟩
    · exact ⟨none, hstep []⟩
  · exact ⟨none, hstep []⟩

end TimedChannel
end EnocGem5.Noc
