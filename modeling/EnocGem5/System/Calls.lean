import EnocGem5.Coherence.Frame
import EnocGem5.Noc.Active
import EnocGem5.Noc.Conservation

/-!
# Calls — runs of `process` and `clk`

The two calls that the simulator makes on `TrafficManager`, in any order. `process` changes caches,
directory and packet tables; seen from the network it only adds packets to the tables. So what holds
along every run of the network side is decided by the `clk` calls (`always_iff_clkGuarded`).

The first result about runs is here: no flit is lost in a run exactly when no flit is handed to an
inject channel that is taken already.
-/

namespace EnocGem5.System

open Lib Mem Noc Coherence TrafficManager Option

inductive Call
  | process (pkt : Packet)
  | clk (globalClk : ℤ)

def step (S : ENoC) : Call → Option ENoC
  | .process pkt => S.process pkt
  | .clk globalClk => (S.tm.clk globalClk).map fun tm => { S with tm := tm }

/-! ## What `process` leaves alone -/

/-- Only the packet tables of the network side may differ. -/
def SameNetwork (S S' : ENoC) : Prop := ∃ table, S'.tm = { S.tm with packetTable := table }

theorem processFrame_sameNetwork : ENoC.ProcessFrame SameNetwork where
  refl S := ⟨S.tm.packetTable, rfl⟩
  trans := by
    rintro S S' S'' ⟨table, h⟩ ⟨table', h'⟩
    exact ⟨table', by rw [h', h]⟩
  setSet S _ _ _ _ := ⟨S.tm.packetTable, rfl⟩
  push := by
    intro S S' src type pk h
    rcases map_eq_some_iff.1 h with ⟨tm, htm, rfl⟩
    unfold loadTraffic at htm
    split_ifs at htm
    cases htm
    exact ⟨_, rfl⟩
  lines S _ := ⟨S.tm.packetTable, rfl⟩

/-! ## Invariants and guards of the network side -/

/-- The guard on `clk` calls that `G` is of their network side; `process` calls are free. -/
def ClkGuarded (G : ℤ → TrafficManager → Prop) (S : ENoC) : Call → Prop
  | .process _ => True
  | .clk t => G t S.tm

/-- A property of the network side that does not look at the packet tables. -/
def TableFree (P : TrafficManager → Prop) : Prop :=
  ∀ T table, P { T with packetTable := table } ↔ P T

section Rules

variable {P Inv : TrafficManager → Prop} {G : ℤ → TrafficManager → Prop} {S S' : ENoC}

theorem TableFree.sameNetwork (hP : TableFree P) (h : SameNetwork S S') : P S'.tm ↔ P S.tm := by
  rcases h with ⟨table, h⟩
  rw [h]
  exact hP S.tm table

theorem inv_step (hInv : TableFree Inv)
    (hclk : ∀ t T T', Inv T → G t T → T.clk t = some T' → Inv T') {c : Call} (hS : Inv S.tm)
    (hG : ClkGuarded G S c) (h : step S c = some S') : Inv S'.tm := by
  cases c with
  | process pkt => exact (hInv.sameNetwork (processFrame_sameNetwork.process h)).2 hS
  | clk t =>
    rcases map_eq_some_iff.1 h with ⟨tm, htm, rfl⟩
    exact hclk t S.tm tm hS hG htm

/-- If `clk` keeps `P` exactly when its guard holds, then so does a whole run. -/
theorem always_iff_clkGuarded (hInv : TableFree Inv) (hP : TableFree P)
    (hclk : ∀ t T T', Inv T → T.clk t = some T' → Inv T')
    (hiff : ∀ t T T', Inv T → P T → T.clk t = some T' → (P T' ↔ G t T)) {calls : List Call}
    (hS : Inv S.tm) (hPS : P S.tm) :
    Always step (fun S => P S.tm) S calls ↔ Throughout step (ClkGuarded G) S calls := by
  have hinv : ∀ (S : ENoC) (c : Call) (S' : ENoC), Inv S.tm → step S c = some S' → Inv S'.tm := by
    intro S c S' hS h
    exact inv_step (G := fun _ _ => True) hInv (fun t T T' hT _ => hclk t T T' hT) hS
      (by cases c <;> trivial) h
  refine always_iff_throughout hinv (fun S c S' hS hPS h => ?_) hS hPS
  cases c with
  | process pkt =>
    have hsame := hP.sameNetwork (processFrame_sameNetwork.process h)
    exact ⟨fun _ => trivial, fun _ => hsame.2 hPS⟩
  | clk t =>
    rcases map_eq_some_iff.1 h with ⟨tm, htm, rfl⟩
    exact hiff t S.tm tm hS hPS htm

end Rules

/-! ## Evaluating runs

Runs that process some packets and then call `clk` at given times are evaluated over the routers and
queues that take part. -/

section Evaluate

variable {A : List ℕ} {B : List (ℕ × ℕ)} {pkts : List Packet} {times : List ℤ} {S : ENoC}
  {T : TrafficManager}

/-- The network side after the calls; `none` also when a packet is not in the queues `B` or a flit
leaves the routers `A`. -/
def evaluate (S : ENoC) (A : List ℕ) (B : List (ℕ × ℕ)) (pkts : List Packet) (times : List ℤ) :
    Option TrafficManager := do
  let S ← pkts.foldlM ENoC.process S
  if ∀ x ∈ nodeTypes, x ∉ B → S.tm.packetTable x = [] then
    times.foldlM (clkOn A B) S.tm
  else none

theorem run_process (pkts : List Packet) (S : ENoC) :
    (pkts.map Call.process).foldlM step S = pkts.foldlM ENoC.process S := by
  rw [List.foldlM_map]
  rfl

theorem confined_initial (k : ℕ) (A : List ℕ) : NetworkNoC.Confined k A {} := by
  refine ⟨⟨fun _ => rfl, fun _ => rfl⟩, fun r _ => ?_, fun r _ _ i _ => ?_⟩
  · constructor <;> first | (intros; rfl) | (constructor <;> rfl)
  · cases hc : inChan k r i <;> rfl

theorem run_clk (hreg : TrafficManager.Region A B)
    (hS : S.tm.Confined A B) (h : times.foldlM (clkOn A B) S.tm = some T) :
    (times.map Call.clk).foldlM step S = some { S with tm := T } ∧ T.Confined A B := by
  induction times generalizing S with
  | nil =>
    cases h
    exact ⟨rfl, hS⟩
  | cons t times ih =>
    rcases foldlM_cons_some h with ⟨T₁, hT₁, hrest⟩
    rcases clk_of_clkOn hreg hS hT₁ with ⟨hclk, hconf⟩
    rcases ih (S := { S with tm := T₁ }) hconf hrest with ⟨hrun, hT⟩
    refine ⟨?_, hT⟩
    have hstep : step S (.clk t) = some { S with tm := T₁ } := by simp [step, hclk]
    rw [List.map_cons, List.foldlM_cons, hstep]
    exact hrun

theorem sameNetwork_of_process (h : pkts.foldlM ENoC.process {} = some S) : SameNetwork {} S :=
  foldlM_invariant (fun _ _ _ _ hQ hQ' => processFrame_sameNetwork.trans hQ
    (processFrame_sameNetwork.process hQ')) (processFrame_sameNetwork.refl {}) h

/-- What is evaluated is a run from the initial state. -/
theorem run_of_evaluate (hreg : TrafficManager.Region A B)
    (h : evaluate {} A B pkts times = some T) :
    ∃ S : ENoC, (pkts.map Call.process ++ times.map Call.clk).foldlM step {} = some S ∧ S.tm = T ∧
      T.Confined A B := by
  simp only [evaluate, bind_eq_bind, bind_eq_some_iff] at h
  rcases h with ⟨S, hS, h⟩
  split_ifs at h with htable
  have hsame := sameNetwork_of_process hS
  have hconf : S.tm.Confined A B := by
    rcases hsame with ⟨table, hsame⟩
    refine ⟨?_, htable, fun x _ _ => ?_⟩
    · rw [hsame]
      exact confined_initial meshDimX A
    · rw [hsame]
  rcases run_clk hreg hconf h with ⟨hrun, hT⟩
  refine ⟨{ S with tm := T }, ?_, rfl, hT⟩
  rw [List.foldlM_append, run_process, hS]
  exact hrun

/-- The guard of a run has to hold along its evaluation. -/
theorem throughout_clk (hreg : TrafficManager.Region A B) {G : ℤ → TrafficManager → Prop}
    {H : TrafficManager → ℤ → Prop} (hH : ∀ T t, T.Confined A B → H T t → G t T)
    (hS : S.tm.Confined A B) (h : times.foldlM (clkOn A B) S.tm = some T)
    (hrun : Throughout (clkOn A B) H S.tm times) :
    Throughout step (ClkGuarded G) S (times.map Call.clk) := by
  induction times generalizing S with
  | nil => trivial
  | cons t times ih =>
    rcases foldlM_cons_some h with ⟨T₁, hT₁, hrest⟩
    rcases clk_of_clkOn hreg hS hT₁ with ⟨hclk, hconf⟩
    rcases hrun T₁ hT₁ with ⟨hguard, hmore⟩
    intro S' hS'
    obtain rfl : { S with tm := T₁ } = S' := by simpa [step, hclk] using hS'
    exact ⟨hH S.tm t hS hguard, ih hconf hrest hmore⟩

end Evaluate

/-! ## Conservation of flits -/

theorem sound_initial : ({} : TrafficManager).Sound := by
  have hnone := NetworkNoC.occurrences_initial meshDimX
  exact ⟨⟨fun _ => rfl, fun _ => rfl⟩, NetworkNoC.placed_initial meshDimX,
    fun u => (hnone u).le.trans zero_le_one, fun u _ => hnone u⟩

theorem noLoss_initial : ({} : TrafficManager).NoLoss := by
  refine ⟨fun u hu => absurd hu (Nat.not_lt_zero u), fun r f hf => ?_⟩
  cases hf

theorem tableFree_sound : TableFree TrafficManager.Sound :=
  fun _ _ => ⟨fun h => ⟨h.1, h.2, h.3, h.4⟩, fun h => ⟨h.1, h.2, h.3, h.4⟩⟩

theorem tableFree_noLoss : TableFree TrafficManager.NoLoss :=
  fun _ _ => ⟨fun h => ⟨h.1, h.2⟩, fun h => ⟨h.1, h.2⟩⟩

/-- In every run no flit is in two places, every one was made, and received ones are where they were
sent. -/
theorem sound_run (calls : List Call) : Always step (fun S => S.tm.Sound) {} calls := by
  refine Always.of_invariant (fun _ => id) (fun S c S' hS h => ?_) sound_initial
  have hfree : ClkGuarded (fun _ _ => True) S c := by cases c <;> trivial
  exact inv_step tableFree_sound (fun _ _ _ hT _ => sound_clk hT) hS hfree h

/-- In a run every flit that was made is in exactly one place all the time, exactly when every flit
handed over in the run finds the inject channel of its node free. -/
theorem noLoss_iff_slotFree (calls : List Call) :
    Always step (fun S => S.tm.NoLoss) {} calls ↔
      Throughout step
        (ClkGuarded fun t T => TrafficManager.ServeGuarded t (TrafficManager.SlotFree t) T) {}
        calls := by
  apply always_iff_clkGuarded tableFree_sound tableFree_noLoss _ _ sound_initial noLoss_initial
  · intro t T T' hT h
    exact sound_clk hT h
  · intro t T T' hT hP h
    exact noLoss_clk_iff hT hP h

def cleanEvict (node addr time : ℕ) : Packet :=
  { cmd := .CleanEvict, req := { masterId := node, time := time }, addr := addr }

theorem region_nodeZero : TrafficManager.Region [0] [(0, 0), (0, 1)] := by
  constructor <;> decide +kernel

/-- An eviction by node 0 has a message of type 0 and one of type 1. The next `clk` puts the heads
of both on the inject channel of node 0, and the first one is lost. -/
theorem evict_losesHead :
    ∃ S : ENoC, [.process (cleanEvict 0 0 0), .clk 2].foldlM step {} = some S ∧ ¬ S.tm.NoLoss := by
  have heval : (do
      let T ← evaluate {} [0] [(0, 0), (0, 1)] [cleanEvict 0 0 0] []
      let T' ← T.clkOn [0] [(0, 0), (0, 1)] 2
      let net ← T.net.clkOn [0] meshDimX 2
      let R ← serveNode 2 { T with net := net } (0, 0)
      let R' ← serveNode 2 R (0, 1)
      some (handsOver 2 R (0, 1) && (R.net.channel (.inject 0)).input.isSome)) =
      some true := by
    decide +kernel
  simp only [bind_eq_bind, bind_eq_some_iff] at heval
  rcases heval with ⟨T, hT, T', hT', net, hnet, R, hR, R', hR', hlost⟩
  rcases run_of_evaluate region_nodeZero hT with ⟨S, hS, hST, hconf⟩
  have hclk := (clk_of_clkOn region_nodeZero hconf hT').1
  have hprocess : ENoC.process {} (cleanEvict 0 0 0) = some S := by
    simpa [step] using hS
  have hsame := processFrame_sameNetwork.process hprocess
  have hsound : T.Sound := hST ▸ (tableFree_sound.sameNetwork hsame).2 sound_initial
  have hnoLoss : T.NoLoss := hST ▸ (tableFree_noLoss.sameNetwork hsame).2 noLoss_initial
  refine ⟨{ S with tm := T' }, ?_, fun hkept => ?_⟩
  · simp [step, hprocess, hST, hclk]
  · -- the guard fails when the second queue of node 0 is served
    have hguard := (noLoss_clk_iff hsound hnoLoss hclk).1 hkept
    have hnetClk := (NetworkNoC.clk_of_clkOn region_nodeZero.routers hconf.net hnet).1
    have hfirst : [(0, 0)].foldlM (serveNode 2) { T with net := net } = some R := by
      simpa using hR
    have hfree : TrafficManager.SlotFree 2 R (0, 1) :=
      Throughout.at (hguard net hnetClk) hfirst hR'
    simp only [some.injEq, Bool.and_eq_true] at hlost
    simp [hfree hlost.1] at hlost

/-! ## When a packet is due -/

/-- A tick as `int`: `2 ^ 32` is taken away for each sign change of the 32-bit clock up to it. -/
theorem toInt_eq (n : ℕ) : toInt n = n - 2 ^ 32 * ((n + 2 ^ 31) / 2 ^ 32 : ℕ) := by
  unfold toInt
  rw [Int.bmod_def]
  omega

/-- A packet stamped at tick `t` with delay `d` leaves its table at a later tick exactly if it is in
the table of its source and is overdue by `2 ^ 32` ticks for each sign change of the 32-bit clock
since it was stamped. -/
theorem readPacket_released_iff {T : TrafficManager} {node type t d now : ℕ} {pk : PacketNoC}
    {rest : List PacketNoC} (hfront : T.packetTable (node, type) = pk :: rest)
    (hstamp : pk.time = toInt t + d) (hdue : t + d ≤ now) :
    (T.readPacket (toInt now) node type).packetTable (node, type) = rest ↔
      pk.srcId = node ∧ 2 ^ 32 * ((now + 2 ^ 31) / 2 ^ 32 - (t + 2 ^ 31) / 2 ^ 32) ≤
      now - (t + d) := by
  have htime : pk.time ≤ toInt now ↔
      2 ^ 32 * ((now + 2 ^ 31) / 2 ^ 32 - (t + 2 ^ 31) / 2 ^ 32) ≤ now - (t + d) := by
    rw [hstamp, toInt_eq, toInt_eq]
    omega
  rw [← htime, and_comm]
  simp only [TrafficManager.readPacket, hfront]
  split
  case isTrue hready => simp [hready]
  case isFalse hblocked => simp [hfront, hblocked]

theorem readPacket_releases_due :
    (({ packetTable := fun _ =>
        [{ srcId := 0, dstId := 1, packetType := 3, dataLength := 1, time := 2 }] } :
      TrafficManager).readPacket (toInt 2) 0 0).packetTable (0, 0) = [] :=
  (readPacket_released_iff (t := 0) (d := 2) rfl (by decide +kernel) le_rfl).2 ⟨rfl, by decide⟩

/-- The first message of an eviction at tick `2 ^ 31 - 100` is due at once; at tick `2 ^ 31`, the
`int` minimum, it stays in its table. -/
theorem duePacket_stalls :
    ((ENoC.process {} (cleanEvict 0 0 (2 ^ 31 - 100))).map fun S =>
      ((S.tm.packetTable (0, 0)).map (·.time),
        ((S.tm.readPacket (toInt (2 ^ 31)) 0 0).packetTable (0, 0)).map (·.time))) =
      some ([2 ^ 31 - 100], [2 ^ 31 - 100]) := by
  decide +kernel

end EnocGem5.System
