import EnocGem5.Lib.Outcome
import EnocGem5.Garnet.NetworkInterface
import EnocGem5.Ruby.NetDest

/-!
# Multicast — one packet for each destination of a message

`NetworkInterface::flitisizeMessage` makes a packet for each destination of a message, as long as
there are free virtual channels. If it runs out of them it is called again at a later wakeup, on the
same message: to remember what is done, it takes the destinations that have their packet out of the
message. The last destination is treated differently if it is alone, since then the message already
goes to it only.

The destinations are the `NetDest` of the message.
-/

namespace EnocGem5.Garnet

open Lib Ruby List

/-- `num_flits`. The quotient of two 32-bit numbers in double precision has the right ceiling. -/
def numFlits (messageSize niFlitSize : ℕ) : ℕ := ⌈(messageSize : ℚ) / niFlitSize⌉₊

/-- A packet: its node, the destinations that its message and its route carry, its channel, and its
flits. -/
structure UnicastPacket (M : MachineTypes) where
  destID : ℕ
  netDest : NetDest M
  vc : ℕ
  flits : List Flit

/-- What a call of `flitisizeMessage` returns, makes and leaves. -/
structure Flitisized (M : MachineTypes) where
  returned : Bool
  packets : List (UnicastPacket M)
  dest : NetDest M
  state : State

section Code

variable {M : MachineTypes} (C : Config) (i l vnet size : ℕ)

/-- `personal_dest`, and the destinations of the new message. -/
def personalDest (destID : ℕ) (dest : NetDest M) : Result (NetDest M × NetDest M) :=
  match M.typeOf destID with
  | none => pure (.empty, dest)
  | some m => do
    let personal ← present (NetDest.empty.add ⟨m, destID - M.baseNumber m⟩)
    pure (personal, personal)

/-- The loop over `dest_nodes`. `multi` says that there is more than one. -/
def flitisizeDests (multi : Bool) : List ℕ → NetDest M → State → Result (Flitisized M)
  | [], dest, S => pure ⟨true, [], dest, S⟩
  | destID :: rest, dest, S => do
    let (S, vc) ← S.calculateVc C i l vnet
    match vc with
    | none => pure ⟨false, [], dest, S⟩
    | some vc => do
      let (netDest, dest) ←
        if multi then do
          let (personal, netDest) ← personalDest destID dest
          pure (netDest, dest.removeNetDest personal)
        else pure (dest, dest)
      let F ← flitisizeDests multi rest dest (S.inject i l vc vnet destID size)
      pure { F with
        packets := ⟨destID, netDest, vc, S.packetFlits i vc vnet destID size⟩ :: F.packets }

/-- `NetworkInterface::flitisizeMessage`, for packets of `size` flits. -/
def flitisizeMessage (dest : NetDest M) (S : State) : Result (Flitisized M) :=
  flitisizeDests C i l vnet size (1 < dest.getAllDest.length) dest.getAllDest dest S

end Code

/-! ## Packets -/

def packetTypes : ℕ → List FlitType
  | 0 => []
  | 1 => [.HEAD_TAIL]
  | n + 2 => .HEAD :: replicate n .BODY ++ [.TAIL]

theorem map_type_packetFlits (S : State) (i vc vnet dest size : ℕ) :
    (S.packetFlits i vc vnet dest size).map Flit.type = packetTypes size := by
  unfold State.packetFlits
  rw [map_map]
  match size with
  | 0 => rfl
  | 1 => rfl
  | n + 2 =>
    -- the first flit, those in the middle, and the last one
    rw [range_succ, range_succ_eq_map, map_append, map_cons, map_map]
    have hmiddle : (List.range n).map (fun _ => FlitType.BODY) = replicate n .BODY := by
      rw [map_const', length_range]
    change _ = FlitType.HEAD :: replicate n .BODY ++ [.TAIL]
    rw [← hmiddle]
    refine congrArg₂ (· ++ ·) (congrArg₂ List.cons ?_ (map_congr_left fun k hk => ?_))
      (congrArg (fun x => [x]) ?_)
    · simp [Flit.type]
    · have hlt : k < n := mem_range.1 hk
      have hnot : ¬ k = n := Nat.ne_of_lt hlt
      simp [Flit.type, hnot]
    · simp [Flit.type]

/-- A packet goes to one controller, which is all that its message and its route carry, and has its
flits in order. -/
structure UnicastPacket.Sound {M : MachineTypes} (size : ℕ) (p : UnicastPacket M)
    (mach : MachineID) : Prop where
  machine : mach ∈ M.machines
  destID : p.destID = M.number mach
  single : p.netDest.Single mach
  length : p.flits.length = size
  types : p.flits.map Flit.type = packetTypes size

/-! ## One call -/

section Call

variable {M : MachineTypes} {C : Config} {i l vnet size x : ℕ} {dest : NetDest M} {S : State}
  {mach : MachineID} {rest : List ℕ}

theorem sound_packetFlits {vc : ℕ} (hmach : mach ∈ M.machines) (hsingle : dest.Single mach) :
    UnicastPacket.Sound size
      ⟨M.number mach, dest, vc, S.packetFlits i vc vnet (M.number mach) size⟩ mach where
  machine := hmach
  destID := rfl
  single := hsingle
  length := by
    unfold State.packetFlits
    rw [length_map, length_range]
  types := map_type_packetFlits ..

/-- `personal_dest` is the set of the controller with the node number. -/
theorem personalDest_number (hmach : mach ∈ M.machines) :
    ∃ personal : NetDest M, personalDest (M.number mach) dest = .ok (personal, personal) ∧
    personal.Single mach := by
  rcases NetDest.add_empty hmach with ⟨personal, hadd, hsingle⟩
  refine ⟨personal, ?_, hsingle⟩
  have hnum : (⟨mach.type, M.number mach - M.baseNumber mach.type⟩ : MachineID) = mach := by
    unfold MachineTypes.number
    rw [Nat.add_sub_cancel_left]
  unfold personalDest
  rw [MachineTypes.typeOf_number hmach]
  dsimp only
  rw [hnum, hadd]
  rfl

/-- What a call has done for the destinations of a message. -/
structure Served (size : ℕ) (dest : NetDest M) (F : Flitisized M) : Prop where
  returned : F.returned = true → F.packets.map UnicastPacket.destID = dest.getAllDest
  left : F.returned = false →
    F.packets.map UnicastPacket.destID ++ F.dest.getAllDest = dest.getAllDest
  sound : ∀ p ∈ F.packets, ∃ mach, p.Sound size mach

theorem calculateVc_safe :
    Safe (· = Halt.assertion) (fun _ => True) (S.calculateVc C i l vnet) := by
  unfold State.calculateVc
  split
  · trivial
  · dsimp only
    split
    · exact fun h => Halt.noConfusion h
    · trivial

theorem exists_machine_of_getAllDest (h : dest.getAllDest = x :: rest) :
    ∃ mach ∈ M.machines, M.number mach = x := by
  have hmem : x ∈ dest.getAllDest := by
    rw [h]
    exact mem_cons_self
  rcases NetDest.mem_getAllDest.1 hmem with ⟨mach, hmach, rfl⟩
  exact ⟨mach, NetDest.mem_machines_of_isElement hmach, rfl⟩

/-- The first destination of a message, and the message without it. -/
theorem splitDest (hdest : dest.getAllDest = x :: rest) :
    ∃ (mach : MachineID) (personal : NetDest M), mach ∈ M.machines ∧ M.number mach = x ∧
      personalDest x dest = .ok (personal, personal) ∧ personal.Single mach ∧
      (dest.removeNetDest personal).getAllDest = rest := by
  rcases exists_machine_of_getAllDest hdest with ⟨mach, hmach, rfl⟩
  rcases personalDest_number hmach with ⟨personal, hpersonal, hsingle⟩
  refine ⟨mach, personal, hmach, rfl, hpersonal, hsingle, ?_⟩
  have hnodup : (M.number mach :: rest).Nodup := hdest ▸ dest.nodup_getAllDest
  rw [NetDest.getAllDest_removeNetDest hsingle hmach, hdest, filter_cons_of_neg (by simp),
    filter_eq_self]
  intro y hy
  have hne : y ≠ M.number mach := fun h => (nodup_cons.1 hnodup).1 (h ▸ hy)
  exact decide_eq_true hne

/-- Several destinations: those with a packet are taken out of the message. -/
theorem flitisizeDests_multi (dests : List ℕ) (dest : NetDest M) (S : State)
    (hdest : dest.getAllDest = dests) : Safe (· = Halt.assertion)
      (fun F => F.packets.map UnicastPacket.destID ++ F.dest.getAllDest = dests ∧
        (F.returned = true → F.dest.getAllDest = []) ∧ ∀ p ∈ F.packets, ∃ mach, p.Sound size mach)
      (flitisizeDests C i l vnet size true dests dest S) := by
  induction dests generalizing dest S with
  | nil => exact ⟨hdest, fun _ => hdest, forall_mem_nil _⟩
  | cons x rest ih =>
    refine calculateVc_safe.bind ?_
    rintro ⟨S, vc⟩ -
    cases vc with
    | none => exact ⟨hdest, nofun, forall_mem_nil _⟩
    | some vc =>
      rcases splitDest hdest with ⟨mach, personal, hmach, rfl, hpersonal, hsingle, hrest⟩
      dsimp only
      rw [if_pos rfl, hpersonal]
      change Safe _ _ (flitisizeDests C i l vnet size true rest (dest.removeNetDest personal)
        (S.inject i l vc vnet (M.number mach) size) >>= _)
      refine Safe.bind (ih _ (S.inject i l vc vnet (M.number mach) size) hrest) ?_
      rintro F ⟨hpackets, hdone, hsound⟩
      refine ⟨congrArg (M.number mach :: ·) hpackets, hdone, ?_⟩
      exact forall_mem_cons.2 ⟨⟨mach, sound_packetFlits hmach hsingle⟩, hsound⟩

/-- One destination: the message goes to it as it is. -/
theorem flitisizeDests_single (hdest : dest.getAllDest = [x]) :
    Safe (· = Halt.assertion) (Served size dest)
    (flitisizeDests C i l vnet size false [x] dest S) := by
  refine calculateVc_safe.bind ?_
  rintro ⟨S, vc⟩ -
  cases vc with
  | none => exact ⟨nofun, fun _ => rfl, forall_mem_nil _⟩
  | some vc =>
    rcases exists_machine_of_getAllDest hdest with ⟨mach, hmach, rfl⟩
    refine ⟨fun _ => hdest.symm, nofun, fun p hp => ?_⟩
    rw [mem_singleton.1 hp]
    exact ⟨mach, sound_packetFlits hmach (NetDest.single_of_getAllDest hmach hdest)⟩

theorem flitisizeMessage_served (dest : NetDest M) (S : State) :
    Safe (· = Halt.assertion) (Served size dest) (flitisizeMessage C i l vnet size dest S) := by
  unfold flitisizeMessage
  match hdest : dest.getAllDest with
  | [] => exact ⟨fun _ => hdest.symm, nofun, forall_mem_nil _⟩
  | [x] => exact flitisizeDests_single hdest
  | x :: y :: rest =>
    refine (flitisizeDests_multi _ dest S hdest).mono fun F hF => ?_
    rcases hF with ⟨hpackets, hdone, hsound⟩
    refine ⟨fun hreturned => ?_, fun _ => hpackets.trans hdest.symm, hsound⟩
    rw [hdone hreturned, append_nil] at hpackets
    exact hpackets.trans hdest.symm

end Call

/-! ## Calls until the message is done -/

/-- A message at an interface: the destinations that it has now, the packets that were made for it,
and whether `flitisizeMessage` has returned true, so that it was dequeued. -/
structure Multicast (M : MachineTypes) where
  dest : NetDest M
  packets : List (UnicastPacket M) := []
  done : Bool := false

namespace Multicast

variable {M : MachineTypes}

/-- The interface wakes up in state `S`. -/
def wakeup (C : Config) (i l vnet size : ℕ) (X : Multicast M) (S : State) : Result (Multicast M) :=
  if X.done then pure X
  else do
    let F ← flitisizeMessage C i l vnet size X.dest S
    pure ⟨F.dest, X.packets ++ F.packets, F.returned⟩

/-- The packets that were made are those for the destinations that are not left. -/
structure Progress (size : ℕ) (dest : NetDest M) (X : Multicast M) : Prop where
  done : X.done = true → X.packets.map UnicastPacket.destID = dest.getAllDest
  left : X.done = false → X.packets.map UnicastPacket.destID ++ X.dest.getAllDest = dest.getAllDest
  sound : ∀ p ∈ X.packets, ∃ mach, p.Sound size mach

variable {C : Config} {i l vnet size : ℕ} {dest : NetDest M} {X : Multicast M}

theorem Progress.start (dest : NetDest M) : Progress size dest { dest := dest } where
  done h := absurd h Bool.false_ne_true
  left _ := rfl
  sound _ hp := absurd hp not_mem_nil

theorem Progress.wakeup (h : Progress size dest X) (S : State) :
    Safe (· = Halt.assertion) (Progress size dest) (X.wakeup C i l vnet size S) := by
  unfold Multicast.wakeup
  cases hX : X.done with
  | true => exact h
  | false =>
    refine (flitisizeMessage_served X.dest S).bind fun F hF => ?_
    -- what was left before this call is what it has served, and what it leaves
    have hleft := h.left hX
    refine ⟨fun hdone => ?_, fun hdone => ?_, forall_mem_append.2 ⟨h.sound, hF.sound⟩⟩
    · rw [map_append, hF.returned hdone]
      exact hleft
    · rw [map_append, append_assoc, hF.left hdone]
      exact hleft

/-- Exactly one packet was made for each destination, for it alone, and none for another node. -/
structure DeliversOnce (size : ℕ) (dest : NetDest M) (packets : List (UnicastPacket M)) : Prop where
  once : ∀ mach, dest.isElement mach = true → packets.countP (fun p => p.destID = M.number mach) = 1
  only : ∀ p ∈ packets, ∃ mach, dest.isElement mach = true ∧ p.Sound size mach

theorem Progress.deliversOnce (h : Progress size dest X) (hdone : X.done = true) :
    DeliversOnce size dest X.packets := by
  have hdests := h.done hdone
  constructor
  · intro mach hmach
    have hmem := (NetDest.number_mem_getAllDest (NetDest.mem_machines_of_isElement hmach)).2 hmach
    calc X.packets.countP (fun p => p.destID = M.number mach)
        = (X.packets.map UnicastPacket.destID).count (M.number mach) := by
          rw [List.count, countP_map]
          rfl
      _ = dest.getAllDest.count (M.number mach) := by rw [hdests]
      _ = 1 := count_eq_one_of_mem dest.nodup_getAllDest hmem
  · intro p hp
    rcases h.sound p hp with ⟨mach, hmach⟩
    refine ⟨mach, ?_, hmach⟩
    rw [← NetDest.number_mem_getAllDest hmach.machine, ← hmach.destID, ← hdests]
    exact mem_map.2 ⟨p, hp, rfl⟩

/-- A message of any size for any destinations, and wakeups in any states of the network: when
`flitisizeMessage` has returned true, every destination has got exactly one packet of its own. -/
theorem multicast_once (M : MachineTypes) (C : Config) (i l vnet messageSize niFlitSize : ℕ)
    (dest : NetDest M) (states : List State) (X : Multicast M)
    (hX : states.foldlM (wakeup C i l vnet (numFlits messageSize niFlitSize)) { dest := dest } =
    .ok X) (hdone : X.done = true) : DeliversOnce (numFlits messageSize niFlitSize) dest
    X.packets := by
  let inv : List State → Multicast M →
    Prop := fun _ => Progress (numFlits messageSize niFlitSize) dest
  have hprogress : Safe (· = Halt.assertion) (inv [])
      (states.foldlM (wakeup C i l vnet (numFlits messageSize niFlitSize)) { dest := dest }) :=
    Safe.foldlM (fun S _ _ h => Progress.wakeup h S) (Progress.start dest)
  exact (hprogress.ok hX).deliversOnce hdone

/-- Two channels for each virtual network. -/
def twoChannels : Config where
  vcPerVnet := 2
  vnetType := fun _ => .CTRL
  buffersPerDataVC := 1
  buffersPerCtrlVC := 1
  deadlockThreshold := 50000
  buffers_pos := by decide

/-- Two caches and a directory, with a message for the second cache and the directory. -/
def cacheAndDirectory : NetDest ⟨[2, 1]⟩ where
  bits m j := (m = 0 && j = 1) || (m = 1 && j = 0)
  bits_machines m j h := by
    simp only [Bool.or_eq_true, Bool.and_eq_true, decide_eq_true_eq] at h
    rcases h with ⟨rfl, rfl⟩ | ⟨rfl, rfl⟩
    · decide
    · decide

/-- At first only one channel is free. -/
def oneFree : State :=
  { State.initial twoChannels with
    outVcState := fun _ vc => ⟨if vc = 0 then .IDLE else .ACTIVE, 0, 1, 1⟩ }

theorem multicast_once_retried :
    ∃ X, [oneFree, State.initial twoChannels].foldlM (wakeup twoChannels 0 0 0 (numFlits 72 16))
        { dest := cacheAndDirectory } = .ok X ∧ X.done = true ∧
      DeliversOnce (numFlits 72 16) cacheAndDirectory X.packets :=
  ⟨_, rfl, rfl, multicast_once _ twoChannels 0 0 0 72 16 cacheAndDirectory [oneFree,
    State.initial twoChannels] _ rfl
    rfl⟩

end Multicast

end EnocGem5.Garnet
