import EnocGem5.Lib.Run

/-!
# XBarLayer — occupancy and retries of a crossbar layer

A layer of `BaseXBar` serialises the packets that converge at one port. A port that finds the layer
occupied waits in `waitingForLayer`; a port whose packet was refused by the peer waits in
`waitingForPeer`. When the layer is released, or the peer asks for a retry, the first waiting port
is told to try again.

`sendRetry` calls back into the layer, so `releaseLayer` and `recvRetry` are modelled up to that
call, and what `retryWaiting` does after it is a step of its own. A call is `none` where an
assertion fails.
-/

namespace EnocGem5.Mem.BaseXBar

open Lib

/-! ## The layer -/

inductive State
  | idle
  | busy
  | retry
  deriving DecidableEq, Repr

/-- `Layer`, with source ports `P`. The release event is the tick it is scheduled for. -/
structure Layer (P : Type*) where
  state : State := .idle
  waitingForLayer : List P := []
  waitingForPeer : Option P := none
  releaseEvent : Option ℕ := none
  deriving DecidableEq, Repr

namespace Layer

variable {P : Type*} [DecidableEq P] (L : Layer P)

/-- `occupyLayer` at tick `now`, with the assertions of `schedule`. -/
def occupyLayer (now busyTime : ℕ) : Option (Layer P) :=
  if L.state = .busy ∧ busyTime ≠ 0 ∧ L.releaseEvent = none ∧ now ≤ busyTime then
    some { L with releaseEvent := some busyTime }
  else none

def tryTiming (srcPort : P) : Option (Layer P × Bool) :=
  if L.state = .busy ∨ L.waitingForPeer ≠ none then
    -- the port should not be waiting already
    if srcPort ∈ L.waitingForLayer then none
    else some ({ L with waitingForLayer := L.waitingForLayer ++ [srcPort] }, false)
  else some ({ L with state := .busy }, true)

def succeededTiming (now busyTime : ℕ) : Option (Layer P) :=
  if L.state = .busy then L.occupyLayer now busyTime else none

def failedTiming (srcPort : P) (now busyTime : ℕ) : Option (Layer P) :=
  if L.waitingForPeer = none then
    let L := { L with waitingForPeer := some srcPort }
    if L.state = .busy then L.occupyLayer now busyTime else none
  else none

/-- `retryWaiting` up to the call of `sendRetry`, with the port that is told to retry. -/
def retryWaiting : Option (Layer P × P) :=
  match L.waitingForLayer with
  | [] => none
  | retryingPort :: rest =>
    if L.state = .idle then
      some ({ L with state := .retry, waitingForLayer := rest }, retryingPort)
    else none

/-- What `retryWaiting` does after `sendRetry`. -/
def retryWaitingEnd (now clockEdge : ℕ) : Option (Layer P) :=
  if L.state = .retry then { L with state := .busy }.occupyLayer now clockEdge else some L

/-- `releaseLayer` up to the call of `sendRetry`, if there is one. -/
def releaseLayer : Option (Layer P × Option P) :=
  if L.state = .busy ∧ L.releaseEvent = none then
    let L := { L with state := .idle }
    -- there is no point in sending a retry if someone is still waiting for the peer
    if L.waitingForLayer ≠ [] ∧ L.waitingForPeer = none then
      L.retryWaiting.map fun r => (r.1, some r.2)
    else some (L, none)
  else none

/-- `recvRetry` up to the call of `sendRetry`, if there is one. -/
def recvRetry : Option (Layer P × Option P) :=
  match L.waitingForPeer with
  | none => none
  | some port =>
    let L := { L with waitingForLayer := port :: L.waitingForLayer, waitingForPeer := none }
    match L.state with
    | .idle => L.retryWaiting.map fun r => (r.1, some r.2)
    | .busy => some (L, none)
    | .retry => none

end Layer

open Layer

/-! ## The callers -/

/-- A call to the layer; `retryReturns` is the return of the `sendRetry` under way. -/
inductive Call (P : Type*)
  | tryTiming (srcPort : P)
  | succeededTiming (now busyTime : ℕ)
  | failedTiming (now busyTime : ℕ)
  | releaseLayer
  | recvRetry
  | retryReturns (now clockEdge : ℕ)
  deriving DecidableEq, Repr

/-- A layer and what its callers are obliged to: the ports that were refused and not told to retry,
the port whose `tryTiming` returned true and waits for its outcome, and whether a `sendRetry` is
under way. -/
structure Session (P : Type*) where
  layer : Layer P := {}
  refused : P → Bool := fun _ => false
  forwarding : Option P := none
  retrying : Bool := false

namespace Session

section Protocol

variable {P : Type*} [DecidableEq P] (s : Session P)

/-- The calls that the callers may make. -/
def Allowed : Call P → Prop
  | .tryTiming srcPort => s.refused srcPort = false ∧ s.forwarding ≠ some srcPort
  | .succeededTiming now busyTime => s.forwarding ≠ none ∧ busyTime ≠ 0 ∧ now ≤ busyTime
  | .failedTiming now busyTime => s.forwarding ≠ none ∧ busyTime ≠ 0 ∧ now ≤ busyTime
  -- events are serviced one after the other, outside any other call
  | .releaseLayer => s.layer.releaseEvent ≠ none ∧ s.forwarding = none ∧ s.retrying = false
  | .recvRetry => s.layer.waitingForPeer ≠ none
  | .retryReturns now clockEdge =>
    s.retrying = true ∧ s.forwarding = none ∧ clockEdge ≠ 0 ∧ now ≤ clockEdge

instance (c : Call P) : Decidable (s.Allowed c) :=
  match c with
  | .tryTiming _ | .succeededTiming .. | .failedTiming .. | .releaseLayer | .retryReturns .. =>
    inferInstanceAs (Decidable (_ ∧ _))
  | .recvRetry => inferInstanceAs (Decidable (_ ≠ _))

/-- The layer after a call that may have told a port to retry. -/
def afterRetry : Layer P × Option P → Session P
  | (L, none) => { s with layer := L }
  | (L, some port) =>
    { s with layer := L, refused := Function.update s.refused port false, retrying := true }

def run : Call P → Option (Session P)
  | .tryTiming srcPort =>
    (s.layer.tryTiming srcPort).map fun r =>
      if r.2 then { s with layer := r.1, forwarding := some srcPort }
      else { s with layer := r.1, refused := Function.update s.refused srcPort true }
  | .succeededTiming now busyTime =>
    (s.layer.succeededTiming now busyTime).map fun L =>
      { s with layer := L, forwarding := none }
  | .failedTiming now busyTime =>
    match s.forwarding with
    | none => none
    | some srcPort =>
      (s.layer.failedTiming srcPort now busyTime).map fun L =>
        { s with
          layer := L
          forwarding := none
          refused := Function.update s.refused srcPort true }
  -- the event is descheduled when it is serviced
  | .releaseLayer => ({ s.layer with releaseEvent := none }.releaseLayer).map s.afterRetry
  | .recvRetry => s.layer.recvRetry.map s.afterRetry
  | .retryReturns now clockEdge =>
    (s.layer.retryWaitingEnd now clockEdge).map fun L => { s with layer := L, retrying := false }

def step (c : Call P) : Option (Session P) :=
  if s.Allowed c then s.run c else none

end Protocol

variable {P : Type*} {c : Call P} {p : P}

/-! ## What holds during and between the calls -/

def waiting (s : Session P) : List P := s.layer.waitingForPeer.toList ++ s.layer.waitingForLayer

/-- The invariant of the layer, also in the middle of a forwarded packet and of a `sendRetry`. -/
structure Inv (s : Session P) : Prop where
  nodup : s.waiting.Nodup
  refused_iff : ∀ p, s.refused p = true ↔ p ∈ s.waiting
  forwarding : s.forwarding ≠ none →
    s.layer.state = .busy ∧ s.layer.releaseEvent = none ∧ s.layer.waitingForPeer = none
  forwarding_free : ∀ p, s.forwarding = some p → s.refused p = false
  idle : s.layer.state = .idle → s.layer.releaseEvent = none ∧ s.retrying = false ∧
    (s.layer.waitingForLayer = [] ∨ s.layer.waitingForPeer ≠ none)
  busy : s.layer.state = .busy → s.forwarding = none → s.layer.releaseEvent ≠ none
  retry : s.layer.state = .retry →
    s.retrying = true ∧ s.layer.releaseEvent = none ∧ s.layer.waitingForPeer = none

theorem inv_initial : Inv ({} : Session P) := by
  constructor <;> simp [waiting]

section Steps

variable {s s' : Session P}

/-- In a layer that is occupied until its release, only the waiting ports are to be accounted
for. -/
theorem Inv.of_occupied (hstate : s.layer.state = .busy) (hrelease : s.layer.releaseEvent ≠ none)
    (hforwarding : s.forwarding = none) (hnodup : s.waiting.Nodup)
    (hrefused : ∀ p, s.refused p = true ↔ p ∈ s.waiting) : s.Inv := by
  refine ⟨hnodup, hrefused, ?_, ?_, ?_, fun _ _ => hrelease, ?_⟩
  · intro hsome
    exact absurd hforwarding hsome
  · intro p hp
    rw [hforwarding] at hp
    cases hp
  · intro hidle
    rw [hstate] at hidle
    cases hidle
  · intro hretry
    rw [hstate] at hretry
    cases hretry

variable {now busyTime : ℕ} {L : Layer P}

theorem occupyLayer_some {L' : Layer P}
    (h : L.occupyLayer now busyTime = some L') : L' = { L with releaseEvent := some busyTime } := by
  unfold occupyLayer at h
  split at h
  · exact (Option.some.inj h).symm
  · cases h

theorem occupyLayer_isSome (hstate : L.state = .busy)
    (hrelease : L.releaseEvent = none) (htime : busyTime ≠ 0 ∧ now ≤ busyTime) :
    (L.occupyLayer now busyTime).isSome = true := by
  rw [occupyLayer, if_pos ⟨hstate, htime.1, hrelease, htime.2⟩]
  rfl

theorem retryWaiting_isSome (hstate : L.state = .idle)
    (hwait : L.waitingForLayer ≠ []) : L.retryWaiting.isSome = true := by
  unfold retryWaiting
  split
  case h_1 hnil => exact absurd hnil hwait
  case h_2 =>
    rw [if_pos hstate]
    rfl

theorem nodup_refuse (hs : s.Inv) (hp : s.refused p = false) : (s.waiting ++ [p]).Nodup := by
  have hnot : p ∉ s.waiting := by
    intro hmem
    rw [(hs.refused_iff p).2 hmem] at hp
    cases hp
  exact hs.nodup.append (List.nodup_singleton p) (by simpa using hnot)

variable [DecidableEq P]

theorem refused_update_true {waiting' : List P} (hs : s.Inv)
    (hmem : ∀ q, q ∈ waiting' ↔ q ∈ s.waiting ∨ q = p) (q : P) :
    Function.update s.refused p true q = true ↔ q ∈ waiting' := by
  rw [hmem]
  by_cases hq : q = p
  · subst hq
    simp
  · simp [hq, hs.refused_iff q]

theorem inv_tryTiming (hs : s.Inv) (hallowed : s.Allowed (.tryTiming p))
    (h : s.run (.tryTiming p) = some s') : s'.Inv := by
  rcases hallowed with ⟨hfree, hnot⟩
  rcases Option.map_eq_some_iff.1 h with ⟨⟨L, accepted⟩, hL, rfl⟩
  unfold tryTiming at hL
  split at hL
  case isTrue hoccupied =>
    rcases Option.ite_none_left_eq_some.1 hL with ⟨-, hL⟩
    cases hL
    refine ⟨?_, ?_, hs.forwarding, ?_, ?_, hs.busy, hs.retry⟩
    · simpa [waiting] using nodup_refuse hs hfree
    · exact refused_update_true hs (by simp [waiting, or_assoc])
    · intro q hq
      have hqp : q ≠ p := by
        rintro rfl
        exact hnot hq
      simpa [hqp] using hs.forwarding_free q hq
    · -- the layer is idle and refuses, so somebody waits for the peer
      intro hidle
      rcases hs.idle hidle with ⟨hrelease, hretrying, _⟩
      refine ⟨hrelease, hretrying, .inr ?_⟩
      rcases hoccupied with hbusy | hpeer
      · rw [hbusy] at hidle
        cases hidle
      · exact hpeer
  case isFalse hopen =>
    cases hL
    rcases not_or.1 hopen with ⟨hbusy, hpeer⟩
    have hpeer : s.layer.waitingForPeer = none := not_not.1 hpeer
    have hrelease : s.layer.releaseEvent = none := by
      cases hstate : s.layer.state with
      | idle => exact (hs.idle hstate).1
      | busy => exact absurd hstate hbusy
      | retry => exact (hs.retry hstate).2.1
    refine ⟨hs.nodup, hs.refused_iff, fun _ => ⟨rfl, hrelease, hpeer⟩, ?_, ?_, ?_, ?_⟩
    · intro q hq
      exact Option.some.inj hq ▸ hfree
    · intro hidle
      cases hidle
    · intro _ hnone
      cases hnone
    · intro hretry
      cases hretry

theorem inv_succeededTiming (hs : s.Inv) (hallowed : s.Allowed (.succeededTiming now busyTime))
    (h : s.run (.succeededTiming now busyTime) = some s') : s'.Inv := by
  rcases Option.map_eq_some_iff.1 h with ⟨L, hL, rfl⟩
  rcases hs.forwarding hallowed.1 with ⟨hbusy, _, _⟩
  rw [succeededTiming, if_pos hbusy] at hL
  rw [occupyLayer_some hL]
  exact Inv.of_occupied hbusy (by simp) rfl hs.nodup hs.refused_iff

theorem inv_failedTiming (hs : s.Inv) (hallowed : s.Allowed (.failedTiming now busyTime))
    (h : s.run (.failedTiming now busyTime) = some s') : s'.Inv := by
  rcases hs.forwarding hallowed.1 with ⟨hbusy, _, hpeer⟩
  cases hp : s.forwarding with
  | none => exact absurd hp hallowed.1
  | some p =>
    have hfree : s.refused p = false := hs.forwarding_free p hp
    simp only [run, hp] at h
    rcases Option.map_eq_some_iff.1 h with ⟨L, hL, rfl⟩
    simp only [failedTiming, hpeer, hbusy, if_true] at hL
    rw [occupyLayer_some hL]
    have hwaiting : s.waiting = s.layer.waitingForLayer := by simp [waiting, hpeer]
    refine Inv.of_occupied rfl (by simp) rfl ?_ ?_
    · -- the port moves to the front, where the list stays free of duplicates
      have hnodup := nodup_refuse hs hfree
      rw [hwaiting] at hnodup
      simpa [waiting, and_comm] using (List.nodup_append_comm.1 hnodup)
    · apply refused_update_true hs
      intro q
      rw [hwaiting]
      simp [waiting, or_comm]

/-- The port at the front of the list is told to retry. -/
theorem inv_retryWaiting {r : Layer P × P} (h : L.retryWaiting = some r)
    (hpeer : L.waitingForPeer = none) (hrelease : L.releaseEvent = none)
    (hforwarding : s.forwarding = none) (hnodup : L.waitingForLayer.Nodup)
    (hrefused : ∀ p, s.refused p = true ↔ p ∈ L.waitingForLayer) :
    (s.afterRetry (r.1, some r.2)).Inv := by
  unfold retryWaiting at h
  split at h
  case h_1 => cases h
  case h_2 port rest hlist =>
    rcases Option.ite_none_right_eq_some.1 h with ⟨-, h⟩
    cases h
    rw [hlist] at hnodup hrefused
    rcases List.nodup_cons.1 hnodup with ⟨hport, hrest⟩
    refine ⟨?_, ?_, ?_, ?_, ?_, ?_, fun _ => ⟨rfl, hrelease, hpeer⟩⟩
    · simpa [waiting, afterRetry, hpeer] using hrest
    · -- the retried port is no longer waiting, and nobody else is concerned
      intro q
      by_cases hq : q = port
      · subst hq
        simpa [waiting, afterRetry, hpeer] using hport
      · simpa [waiting, afterRetry, hpeer, hq] using hrefused q
    · intro hsome
      exact absurd hforwarding hsome
    · intro q hq
      exact absurd (hforwarding.symm.trans hq) (by simp)
    · intro hidle
      cases hidle
    · intro hbusy
      cases hbusy

theorem inv_releaseLayer (hs : s.Inv) (hallowed : s.Allowed .releaseLayer)
    (h : s.run .releaseLayer = some s') : s'.Inv := by
  rcases hallowed with ⟨_, hforwarding, hretrying⟩
  rcases Option.map_eq_some_iff.1 h with ⟨r, hr, rfl⟩
  simp only [releaseLayer] at hr
  rcases Option.ite_none_right_eq_some.1 hr with ⟨-, hr⟩
  split at hr
  case isTrue hwait =>
    rcases Option.map_eq_some_iff.1 hr with ⟨r, hretry, rfl⟩
    have hwaiting : s.waiting = s.layer.waitingForLayer := by
      have hpeer : s.layer.waitingForPeer = none := hwait.2
      simp [waiting, hpeer]
    exact inv_retryWaiting hretry hwait.2 rfl hforwarding (hwaiting ▸ hs.nodup)
      (hwaiting ▸ hs.refused_iff)
  case isFalse hnowait =>
    cases hr
    refine ⟨hs.nodup, hs.refused_iff, ?_, ?_, ?_, ?_, ?_⟩
    · intro hsome
      exact absurd hforwarding hsome
    · intro p hp
      exact absurd (hforwarding.symm.trans hp) (by simp)
    · intro _
      refine ⟨rfl, hretrying, ?_⟩
      by_cases hempty : s.layer.waitingForLayer = []
      · exact .inl hempty
      · exact .inr fun hpeer => hnowait ⟨hempty, hpeer⟩
    · intro hbusy
      cases hbusy
    · intro hretry
      cases hretry

theorem inv_recvRetry (hs : s.Inv) (h : s.run .recvRetry = some s') : s'.Inv := by
  rcases Option.map_eq_some_iff.1 h with ⟨r, hr, rfl⟩
  unfold recvRetry at hr
  split at hr
  case h_1 => cases hr
  case h_2 port hport =>
    have hforwarding : s.forwarding = none := by
      by_contra hsome
      rw [(hs.forwarding hsome).2.2] at hport
      cases hport
    -- the port changes lists, but the ports that wait stay the same
    have hwaiting : s.waiting = port :: s.layer.waitingForLayer := by simp [waiting, hport]
    cases hstate : s.layer.state with
    | idle =>
      simp only [hstate] at hr
      rcases Option.map_eq_some_iff.1 hr with ⟨r, hretry, rfl⟩
      exact inv_retryWaiting hretry rfl (hs.idle hstate).1 hforwarding (hwaiting ▸ hs.nodup)
        (hwaiting ▸ hs.refused_iff)
    | busy =>
      simp only [hstate] at hr
      cases hr
      exact Inv.of_occupied rfl (hs.busy hstate hforwarding) hforwarding
        (hwaiting ▸ hs.nodup) (hwaiting ▸ hs.refused_iff)
    | retry =>
      simp only [hstate] at hr
      cases hr

theorem inv_retryReturns {clockEdge : ℕ} (hs : s.Inv)
    (hallowed : s.Allowed (.retryReturns now clockEdge))
    (h : s.run (.retryReturns now clockEdge) = some s') : s'.Inv := by
  rcases hallowed with ⟨hretrying, hforwarding, _⟩
  rcases Option.map_eq_some_iff.1 h with ⟨L, hL, rfl⟩
  unfold retryWaitingEnd at hL
  split at hL
  case isTrue =>
    -- the port did not call in zero time
    rw [occupyLayer_some hL]
    exact Inv.of_occupied rfl (by simp) hforwarding hs.nodup hs.refused_iff
  case isFalse hretry =>
    cases hL
    have hbusy : s.layer.state = .busy := by
      cases hstate : s.layer.state with
      | idle =>
        rw [(hs.idle hstate).2.1] at hretrying
        cases hretrying
      | busy => rfl
      | retry => exact absurd hstate hretry
    exact Inv.of_occupied hbusy (hs.busy hbusy hforwarding) hforwarding hs.nodup hs.refused_iff

theorem inv_step (hs : s.Inv) (h : s.step c = some s') : s'.Inv := by
  rcases Option.ite_none_right_eq_some.1 h with ⟨hallowed, h⟩
  cases c with
  | tryTiming p => exact inv_tryTiming hs hallowed h
  | succeededTiming now busyTime => exact inv_succeededTiming hs hallowed h
  | failedTiming now busyTime => exact inv_failedTiming hs hallowed h
  | releaseLayer => exact inv_releaseLayer hs hallowed h
  | recvRetry => exact inv_recvRetry hs h
  | retryReturns now clockEdge => exact inv_retryReturns hs hallowed h

/-! ## No assertion fails -/

/-- From a state of the invariant, a call that the callers may make meets every assertion. -/
theorem run_isSome (hs : s.Inv) (hallowed : s.Allowed c) : (s.run c).isSome = true := by
  cases c with
  | tryTiming p =>
    have hnot : p ∉ s.layer.waitingForLayer := by
      intro hmem
      have hrefused := (hs.refused_iff p).2 (List.mem_append_right _ hmem)
      rw [hallowed.1] at hrefused
      cases hrefused
    simp only [run, tryTiming, if_neg hnot, Option.isSome_map]
    split <;> rfl
  | succeededTiming now busyTime =>
    rcases hs.forwarding hallowed.1 with ⟨hbusy, hrelease, _⟩
    simp only [run, succeededTiming, if_pos hbusy, Option.isSome_map]
    exact occupyLayer_isSome hbusy hrelease hallowed.2
  | failedTiming now busyTime =>
    rcases hs.forwarding hallowed.1 with ⟨hbusy, hrelease, hpeer⟩
    rcases Option.ne_none_iff_exists'.1 hallowed.1 with ⟨p, hp⟩
    simp only [run, hp, failedTiming, if_pos hpeer, if_pos hbusy, Option.isSome_map]
    exact occupyLayer_isSome hbusy hrelease hallowed.2
  | releaseLayer =>
    have hbusy : s.layer.state = .busy := by
      cases hstate : s.layer.state with
      | idle => exact absurd (hs.idle hstate).1 hallowed.1
      | busy => rfl
      | retry => exact absurd (hs.retry hstate).2.1 hallowed.1
    simp only [run, releaseLayer, hbusy, Option.isSome_map, and_self, if_true]
    split
    case isTrue hwait =>
      rw [Option.isSome_map]
      exact retryWaiting_isSome rfl hwait.1
    case isFalse => rfl
  | recvRetry =>
    rcases Option.ne_none_iff_exists'.1 hallowed with ⟨port, hport⟩
    cases hstate : s.layer.state with
    | idle =>
      simp only [run, recvRetry, hport, hstate, Option.isSome_map]
      exact retryWaiting_isSome rfl (by simp)
    | busy => simp [run, recvRetry, hport, hstate]
    | retry => exact absurd (hs.retry hstate).2.2 hallowed
  | retryReturns now clockEdge =>
    simp only [run, retryWaitingEnd, Option.isSome_map]
    split
    case isTrue hretry => exact occupyLayer_isSome rfl (hs.retry hretry).2.1 hallowed.2.2
    case isFalse => rfl

end Steps

/-! ## Whole runs -/

def Between (s : Session P) : Prop := s.forwarding = none ∧ s.retrying = false

/-- Nobody who waits is forgotten. -/
structure Sound (s : Session P) : Prop where
  busy_iff : s.layer.state = .busy ↔ s.layer.releaseEvent ≠ none
  not_retry : s.layer.state ≠ .retry
  nodup : (s.layer.waitingForPeer.toList ++ s.layer.waitingForLayer).Nodup
  refused_iff : ∀ p, s.refused p = true ↔ p ∈ s.waiting
  served : s.layer.waitingForLayer ≠ [] →
    s.layer.releaseEvent ≠ none ∨ s.layer.waitingForPeer ≠ none

theorem Inv.sound {s : Session P} (hs : s.Inv) (hbetween : s.Between) : s.Sound := by
  rcases hbetween with ⟨hforwarding, hretrying⟩
  have hnot : s.layer.state ≠ .retry := by
    intro hretry
    rw [(hs.retry hretry).1] at hretrying
    cases hretrying
  refine ⟨⟨fun hbusy => hs.busy hbusy hforwarding, ?_⟩, hnot, hs.nodup, hs.refused_iff, ?_⟩
  · intro hrelease
    cases hstate : s.layer.state with
    | idle => exact absurd (hs.idle hstate).1 hrelease
    | busy => rfl
    | retry => exact absurd hstate hnot
  · intro hwait
    cases hstate : s.layer.state with
    | idle => exact .inr ((hs.idle hstate).2.2.resolve_left hwait)
    | busy => exact .inl (hs.busy hstate hforwarding)
    | retry => exact absurd hstate hnot

/-- Along every run of the calls, no allowed call fails an assertion, and between calls nobody who
waits for the layer is forgotten. -/
theorem layer_keepsWaiters [DecidableEq P] (calls : List (Call P)) :
    Always step (fun s => (∀ c, s.Allowed c → (s.run c).isSome = true) ∧ (s.Between → s.Sound))
      {} calls := by
  refine Always.of_invariant ?_ (fun _ _ _ => inv_step) inv_initial
  intro s hs
  exact ⟨fun c hallowed => run_isSome hs hallowed, hs.sound⟩

/-- A refused port ignores its retry, and the port behind it is served next. -/
example : ([Call.tryTiming 0, .failedTiming 1 2, .tryTiming 1, .releaseLayer, .recvRetry,
    .retryReturns 3 4, .releaseLayer].foldlM step ({} : Session ℕ)).map
      (fun s => (s.layer.state, s.layer.waitingForLayer, s.retrying)) =
        some (.retry, [], true) := by
  decide

end Session

end EnocGem5.Mem.BaseXBar
