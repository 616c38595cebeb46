import Mathlib

/-!
# Mesh — the channels that `buildMesh` wires

`NetworkNoC::buildMesh` attaches two output and two input channels per dimension to every router and
then one inject and one eject channel. `AddInputChannel` and `AddOutputChannel` make the channel's
sink and source the router and the port just added, so the order of the calls decides the ports.

This file has the loop as it stands (`buildMesh`) and, for a mesh of any dimension `k`, the closed
forms of the ports it produces: `outChan`, `inChan`, `sinkOf`. The network model uses the closed
forms.
-/

namespace EnocGem5.Noc

open List Function Nat

variable {k n m p x y : ℕ} {w : Wiring}

/-! ## Channel and node numbers -/

/-- The flit channels of the network: `_inject[s]`, `_eject[d]` and `_chan[c]`. -/
inductive ChanId
  | inject (s : ℕ)
  | eject (d : ℕ)
  | chan (c : ℕ)
  deriving DecidableEq, Repr

/-- `_LeftChannel`, for the two dimensions of a mesh. -/
def leftChannel (node dim : ℕ) : ℕ := 2 * 2 * node + (2 * dim + 1)

/-- `_RightChannel`, for the two dimensions of a mesh. -/
def rightChannel (node dim : ℕ) : ℕ := 2 * 2 * node + 2 * dim

def locInDim (k node dim : ℕ) : ℕ := node / k ^ dim % k

/-- `_LeftNode`: at the left edge of the dimension the neighbour is the one at the right edge. -/
def leftNode (k node dim : ℕ) : ℕ :=
  if locInDim k node dim = 0 then node + (k - 1) * k ^ dim else node - k ^ dim

/-- `_RightNode`: at the right edge of the dimension the neighbour is the one at the left edge. -/
def rightNode (k node dim : ℕ) : ℕ :=
  if locInDim k node dim = k - 1 then node - (k - 1) * k ^ dim else node + k ^ dim

/-! ## The construction -/

/-- The ports of every router and the ends of every channel. A channel end is a router and its port;
`none` is the `NULL` router at the outer end of an inject or eject channel. -/
structure Wiring where
  inputChannels : ℕ → List ChanId
  outputChannels : ℕ → List ChanId
  source : ChanId → Option (ℕ × ℕ)
  sink : ChanId → Option (ℕ × ℕ)

namespace Wiring

/-- `_Alloc`: channels exist and are attached to nothing. -/
def alloc : Wiring where
  inputChannels := fun _ => []
  outputChannels := fun _ => []
  source := fun _ => none
  sink := fun _ => none

def addInputChannel (w : Wiring) (node : ℕ) (c : ChanId) : Wiring :=
  { w with
    inputChannels := Function.update w.inputChannels node (w.inputChannels node ++ [c])
    sink := Function.update w.sink c (some (node, (w.inputChannels node).length)) }

def addOutputChannel (w : Wiring) (node : ℕ) (c : ChanId) : Wiring :=
  { w with
    outputChannels := Function.update w.outputChannels node (w.outputChannels node ++ [c])
    source := Function.update w.source c (some (node, (w.outputChannels node).length)) }

end Wiring

/-- The body of the loop over `dim` in `buildMesh`. -/
def buildDim (k node : ℕ) (w : Wiring) (dim : ℕ) : Wiring :=
  let left_node := leftNode k node dim
  let right_node := rightNode k node dim
  let right_input := leftChannel right_node dim
  let left_input := rightChannel left_node dim
  let w := w.addInputChannel node (.chan right_input)
  let w := w.addInputChannel node (.chan left_input)
  let right_output := rightChannel node dim
  let left_output := leftChannel node dim
  let w := w.addOutputChannel node (.chan right_output)
  w.addOutputChannel node (.chan left_output)

/-- The body of the loop over `node` in `buildMesh`. -/
def buildNode (k : ℕ) (w : Wiring) (node : ℕ) : Wiring :=
  let w := (List.range 2).foldl (buildDim k node) w
  (w.addInputChannel node (.inject node)).addOutputChannel node (.eject node)

def buildMesh (k : ℕ) : Wiring := (List.range (k * k)).foldl (buildNode k) Wiring.alloc

/-! ## Closed forms -/

def outChan (node port : ℕ) : ChanId :=
  if port < 4 then .chan (4 * node + port) else .eject node

def inChan (k node port : ℕ) : ChanId :=
  match port with
  | 0 => .chan (4 * rightNode k node 0 + 1)
  | 1 => .chan (4 * leftNode k node 0)
  | 2 => .chan (4 * rightNode k node 1 + 3)
  | 3 => .chan (4 * leftNode k node 1 + 2)
  | _ => .inject node

def neighbour (k node port : ℕ) : ℕ :=
  match port with
  | 0 => rightNode k node 0
  | 1 => leftNode k node 0
  | 2 => rightNode k node 1
  | _ => leftNode k node 1

/-- The sink's input port for an output port: the table that `FindIdleVC`, `SetIdleVC` and
`FindFreeSpace` of the router each write out. -/
def inPort (out_port : ℕ) : ℕ :=
  if out_port = 0 then 1
  else if out_port = 1 then 0
  else if out_port = 2 then 3
  else 2

/-- The router and input port at the far end of a channel. -/
def sinkOf (k : ℕ) : ChanId → Option (ℕ × ℕ)
  | .inject s => some (s, 4)
  | .eject _ => none
  | .chan c => some (neighbour k (c / 4) (c % 4), inPort (c % 4))

/-- The router and output port at the near end of a channel. -/
def sourceOf : ChanId → Option (ℕ × ℕ)
  | .inject _ => none
  | .eject d => some (d, 4)
  | .chan c => some (c / 4, c % 4)

/-! ## Coordinates -/

theorem exists_coords (hn : n < k * k) : ∃ x y, x < k ∧ y < k ∧ n = y * k + x := by
  have hk : 0 < k := pos_of_ne_zero (by rintro rfl; simp at hn)
  exact ⟨n % k, n / k, mod_lt _ hk, Nat.div_lt_of_lt_mul hn, (div_add_mod' n k).symm⟩

theorem coords_lt (hx : x < k) (hy : y < k) : y * k + x < k * k := by
  calc y * k + x < y * k + k := by omega
    _ = (y + 1) * k := by ring
    _ ≤ k * k := mul_le_mul_right k hy

@[simp] theorem coords_mod (y : ℕ) (hx : x < k) : (y * k + x) % k = x := by
  rw [mul_comm, mul_add_mod, mod_eq_of_lt hx]

@[simp] theorem coords_div (y : ℕ) (hx : x < k) : (y * k + x) / k = y := by
  rw [mul_comm, mul_add_div (by omega), div_eq_of_lt hx, add_zero]

section Neighbours

variable (hx : x < k) (hy : y < k)

include hx in
theorem leftNode_zero_coords :
    leftNode k (y * k + x) 0 = y * k + (if x = 0 then k - 1 else x - 1) := by
  simp only [leftNode, locInDim, pow_zero, Nat.div_one, coords_mod y hx, Nat.mul_one]
  split_ifs <;> omega

include hx in
theorem rightNode_zero_coords :
    rightNode k (y * k + x) 0 = y * k + (if x = k - 1 then 0 else x + 1) := by
  simp only [rightNode, locInDim, pow_zero, Nat.div_one, coords_mod y hx, Nat.mul_one]
  split_ifs <;> omega

include hx hy in
theorem leftNode_one_coords :
    leftNode k (y * k + x) 1 = (if y = 0 then k - 1 else y - 1) * k + x := by
  simp only [leftNode, locInDim, pow_one, coords_div y hx, mod_eq_of_lt hy]
  split_ifs with h
  · rw [h]
    omega
  · rw [Nat.sub_one_mul]
    have : k ≤ y * k := Nat.le_mul_of_pos_left k (Nat.pos_of_ne_zero h)
    omega

include hx hy in
theorem rightNode_one_coords :
    rightNode k (y * k + x) 1 = (if y = k - 1 then 0 else y + 1) * k + x := by
  simp only [rightNode, locInDim, pow_one, coords_div y hx, mod_eq_of_lt hy]
  split_ifs with h
  · rw [h]
    omega
  · rw [add_one_mul]
    omega

end Neighbours

theorem wrap_pred_succ (hx : x < k) :
    (if (if x = 0 then k - 1 else x - 1) = k - 1 then 0
      else (if x = 0 then k - 1 else x - 1) + 1) = x := by
  by_cases h : x = 0
  · rw [if_pos h, if_pos rfl, h]
  · rw [if_neg h, if_neg (by omega)]
    omega

theorem wrap_succ_pred (k x : ℕ) :
    (if (if x = k - 1 then 0 else x + 1) = 0 then k - 1
      else (if x = k - 1 then 0 else x + 1) - 1) = x := by
  by_cases h : x = k - 1
  · rw [if_pos h, if_pos rfl, h]
  · rw [if_neg h, if_neg (by omega)]
    omega

/-- The neighbour functions of one dimension are inverse to each other. -/
theorem rightNode_leftNode (dim : ℕ) (hn : n < k * k) (hdim : dim < 2) :
    rightNode k (leftNode k n dim) dim = n ∧ leftNode k (rightNode k n dim) dim = n := by
  obtain ⟨x, y, hx, hy, rfl⟩ := exists_coords hn
  obtain rfl | rfl : dim = 0 ∨ dim = 1 := by omega
  · rw [leftNode_zero_coords hx, rightNode_zero_coords hx]
    rw [rightNode_zero_coords (by split_ifs <;> omega),
      leftNode_zero_coords (by split_ifs <;> omega)]
    rw [wrap_pred_succ hx, wrap_succ_pred k x]
    exact ⟨rfl, rfl⟩
  · rw [leftNode_one_coords hx hy, rightNode_one_coords hx hy]
    rw [rightNode_one_coords hx (by split_ifs <;> omega),
      leftNode_one_coords hx (by split_ifs <;> omega)]
    rw [wrap_pred_succ hy, wrap_succ_pred k y]
    exact ⟨rfl, rfl⟩

theorem neighbour_lt (port : ℕ) (hn : n < k * k) : neighbour k n port < k * k := by
  obtain ⟨x, y, hx, hy, rfl⟩ := exists_coords hn
  unfold neighbour
  split
  · rw [rightNode_zero_coords hx]
    exact coords_lt (by split_ifs <;> omega) hy
  · rw [leftNode_zero_coords hx]
    exact coords_lt (by split_ifs <;> omega) hy
  · rw [rightNode_one_coords hx hy]
    exact coords_lt hx (by split_ifs <;> omega)
  · rw [leftNode_one_coords hx hy]
    exact coords_lt hx (by split_ifs <;> omega)

/-! ## The closed forms agree with the construction -/

theorem inPort_lt (p : ℕ) : inPort p < 4 := by
  unfold inPort
  split_ifs <;> omega

/-- Following a channel out of a port ends at the input port that holds this channel. -/
theorem sinkOf_inChan (hn : n < k * k) (hp : p < 5) : sinkOf k (inChan k n p) = some (n, p) := by
  obtain ⟨h0, h0'⟩ := rightNode_leftNode 0 hn (by omega)
  obtain ⟨h1, h1'⟩ := rightNode_leftNode 1 hn (by omega)
  interval_cases p
  · simp [inChan, sinkOf, neighbour, inPort, mul_add_div, h0']
  · simp [inChan, sinkOf, neighbour, inPort, h0]
  · simp [inChan, sinkOf, neighbour, inPort, mul_add_div, h1']
  · simp [inChan, sinkOf, neighbour, inPort, mul_add_div, h1]
  · rfl

theorem inChan_neighbour (hn : n < k * k) (hp : p < 4) :
    inChan k (neighbour k n p) (inPort p) = outChan n p := by
  obtain ⟨h0, h0'⟩ := rightNode_leftNode 0 hn (by omega)
  obtain ⟨h1, h1'⟩ := rightNode_leftNode 1 hn (by omega)
  interval_cases p <;> simp [inChan, neighbour, inPort, outChan, h0, h0', h1, h1']

theorem sourceOf_outChan (hp : p < 5) : sourceOf (outChan n p) = some (n, p) := by
  unfold outChan
  split_ifs with h
  · simp only [sourceOf]
    congr 2 <;> omega
  · obtain rfl : p = 4 := by omega
    rfl

theorem inChan_inj {n' p' : ℕ} (hn : n < k * k) (hn' : n' < k * k) (hp : p < 5) (hp' : p' < 5)
    (h : inChan k n p = inChan k n' p') : n = n' ∧ p = p' := by
  have hs : some (n, p) = some (n', p') := by
    rw [← sinkOf_inChan hn hp, ← sinkOf_inChan hn' hp', h]
  simpa using hs

theorem outChan_inj {n' p' : ℕ} (hp : p < 5) (hp' : p' < 5)
    (h : outChan n p = outChan n' p') : n = n' ∧ p = p' := by
  have hs : some (n, p) = some (n', p') := by
    rw [← sourceOf_outChan hp, ← sourceOf_outChan hp', h]
  simpa using hs

theorem buildNode_eq (hin : w.inputChannels n = []) (hout : w.outputChannels n = []) :
    buildNode k w n =
      { inputChannels := update w.inputChannels n ((List.range 5).map (inChan k n))
        outputChannels := update w.outputChannels n ((List.range 5).map (outChan n))
        source := (List.range 5).foldl (fun s p => update s (outChan n p) (some (n, p))) w.source
        sink := (List.range 5).foldl (fun s p => update s (inChan k n p) (some (n, p)))
          w.sink } := by
  simp [buildNode, buildDim, Wiring.addInputChannel, Wiring.addOutputChannel, range_succ, hin, hout,
    inChan, outChan, leftChannel, rightChannel]

/-- A loop of updates leaves every key it does not write. -/
theorem foldl_update_of_notMem {α β γ : Type*} [DecidableEq α] (key : γ → α) (val : γ → β) (a : α) :
    ∀ (ps : List γ) (s : α → β), (∀ p ∈ ps, key p ≠ a) →
      ps.foldl (fun s p => update s (key p) (val p)) s a = s a := by
  intro ps
  induction ps with
  | nil => intro s _; rfl
  | cons p ps ih =>
    intro s h
    rw [foldl_cons, ih _ (fun q hq => h q (mem_cons_of_mem _ hq))]
    exact update_of_ne (h p mem_cons_self).symm _ _

/-- A loop of updates with distinct keys stores every value. -/
theorem foldl_update_of_mem {α β γ : Type*} [DecidableEq α] (key : γ → α) (val : γ → β) (p : γ) :
    ∀ (ps : List γ) (s : α → β), ps.Nodup → p ∈ ps → (∀ q ∈ ps, key q = key p → q = p) →
      ps.foldl (fun s p => update s (key p) (val p)) s (key p) = val p := by
  intro ps
  induction ps with
  | nil => intro s _ hp; cases hp
  | cons q ps ih =>
    intro s hnd hp hinj
    rw [foldl_cons]
    obtain ⟨hq, hnd'⟩ := nodup_cons.1 hnd
    rcases mem_cons.1 hp with rfl | hp'
    · rw [foldl_update_of_notMem, update_self]
      intro r hr hrp
      exact hq (hinj r (mem_cons_of_mem _ hr) hrp ▸ hr)
    · exact ih _ hnd' hp' (fun r hr => hinj r (mem_cons_of_mem _ hr))

/-- What the loop has wired once the routers before `m` are built. -/
structure Built (k m : ℕ) (w : Wiring) : Prop where
  inputs : ∀ n, w.inputChannels n = if n < m then (List.range 5).map (inChan k n) else []
  outputs : ∀ n, w.outputChannels n = if n < m then (List.range 5).map (outChan n) else []
  sinks : ∀ n p, n < m → p < 5 → w.sink (inChan k n p) = some (n, p)
  sources : ∀ n p, n < m → p < 5 → w.source (outChan n p) = some (n, p)
  ejects : ∀ d, w.sink (.eject d) = none
  injects : ∀ s, w.source (.inject s) = none

theorem inChan_ne_eject (k n p d : ℕ) : inChan k n p ≠ .eject d := by
  unfold inChan
  split <;> simp

theorem outChan_ne_inject (n p s : ℕ) : outChan n p ≠ .inject s := by
  unfold outChan
  split <;> simp

/-- A table with the first `m` rows of `g` has one more once row `m` is written. -/
theorem update_row {f g : ℕ → List ChanId} (h : ∀ n, f n = if n < m then g n else []) (n : ℕ) :
    update f m (g m) n = if n < m + 1 then g n else [] := by
  by_cases hn : n = m
  · simp [hn]
  · rw [update_of_ne hn, h n]
    simp only [show (n < m + 1) = (n < m) by simp; omega]

/-- The loop over the ports of node `m` attaches their channels and keeps those of the nodes
before. -/
theorem attach_row {key : ℕ → ℕ → ChanId} {s : ChanId → Option (ℕ × ℕ)}
    (hinj : ∀ n ≤ m, ∀ q < 5, ∀ p < 5, key m q = key n p → m = n ∧ q = p)
    (hs : ∀ n p, n < m → p < 5 → s (key n p) = some (n, p)) (n p : ℕ) (hn : n < m + 1)
    (hp : p < 5) :
    (List.range 5).foldl (fun s p => update s (key m p) (some (m, p))) s (key n p) =
    some (n, p) := by
  by_cases hnm : n = m
  · subst hnm
    refine foldl_update_of_mem _ _ p _ _ nodup_range (mem_range.2 hp) ?_
    intro q hq hqp
    exact (hinj n le_rfl q (mem_range.1 hq) p hp hqp).2
  · rw [foldl_update_of_notMem, hs n p (by omega) hp]
    intro q hq hqp
    exact hnm (hinj n (by omega) q (mem_range.1 hq) p hp hqp).1.symm

theorem Built.buildNode (h : Built k m w) (hm : m < k * k) : Built k (m + 1) (buildNode k w m) := by
  rw [buildNode_eq (by simp [h.inputs m]) (by simp [h.outputs m])]
  refine ⟨update_row h.inputs, update_row h.outputs, attach_row ?_ h.sinks, attach_row ?_ h.sources,
    ?_, ?_⟩
  · intro n hn q hq p hp hqp
    exact inChan_inj hm (by omega) hq hp hqp
  · intro n _ q hq p hp hqp
    exact outChan_inj hq hp hqp
  · intro d
    dsimp only
    rw [foldl_update_of_notMem, h.ejects d]
    intro q _
    exact inChan_ne_eject k m q d
  · intro s
    dsimp only
    rw [foldl_update_of_notMem, h.injects s]
    intro q _
    exact outChan_ne_inject m q s

theorem built_foldl (k m : ℕ) (hm : m ≤ k * k) :
    Built k m ((List.range m).foldl (buildNode k) Wiring.alloc) := by
  induction m with
  | zero =>
    refine ⟨fun n => ?_, fun n => ?_, fun n p hn => ?_, fun n p hn => ?_, fun d => rfl,
      fun s => rfl⟩
    · simp [Wiring.alloc]
    · simp [Wiring.alloc]
    · omega
    · omega
  | succ m ih =>
    rw [range_succ, foldl_append]
    exact (ih (by omega)).buildNode (by omega)

/-- The whole construction: every port holds the channel of its closed form. -/
theorem built_buildMesh (k : ℕ) : Built k (k * k) (buildMesh k) := built_foldl k (k * k) le_rfl

end EnocGem5.Noc
