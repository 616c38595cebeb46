import EnocGem5.Minor.Fragments

/-!
# PendingStores — what the load/store queue keeps

The stores that memory has not got yet are in the store buffer, in `transfers` or in `requests`, in
program order. Memory with these performed on top, up to a request that still waits in `requests`,
is what that request should see. The invariant says this, and that memory has the youngest of the
writes that the store buffer has sent. Each operation of the queue keeps it. For a response that
completes a store this needs that no older store of the store buffer has a byte of it.
-/

namespace EnocGem5.Minor

open Lib List Option

namespace LSQRequest

variable (r : LSQRequest)

/-- The request as it was pushed. -/
def origin : LSQRequest :=
  { seqNum := r.seqNum, isLoad := r.isLoad, vaddr := r.vaddr, size := r.size,
    data := if r.isLoad then fun _ => 0 else r.data, fragments := r.fragments }

/-- A store before the request `n`. -/
def before (n : ℕ) (r : LSQRequest) : Bool := !r.isLoad && r.seqNum < n

/-- Nothing of the store was tried yet. -/
def Quiet : Prop := r.numIssuedFragments = 0 ∧ r.state = .StoreInStoreBuffer

def LoadState : Prop :=
  r.state = .InTranslation ∨ r.state = .Translated ∨ r.state = .RequestIssuing ∨
    r.state = .RequestNeedsRetry ∨ r.state = .Complete

def InSlots : Prop :=
  r.isLoad = false ∧
    (r.state = .StoreInStoreBuffer ∨ r.state = .StoreBufferIssuing ∨
    r.state = .StoreBufferNeedsRetry)

def InTransfers : Prop :=
  (r.isLoad = true ∧ r.LoadState) ∨
    (r.isLoad = false ∧ r.numIssuedFragments = 0 ∧ r.state = .StoreToStoreBuffer)

def InRequests : Prop :=
  (r.isLoad = true ∧ r.LoadState) ∨
    (r.isLoad = false ∧ r.numIssuedFragments = 0 ∧
    (r.state = .InTranslation ∨ r.state = .Translated))

variable {r r' : LSQRequest}

theorem origin_piece (h : r.isLoad = false) : r.origin.piece = r.piece := by
  have hdata : r.origin.data = r.data := by simp [origin, h]
  funext f a
  rw [piece, piece, hdata]
  rfl

theorem origin_write (h : r.isLoad = false) : r.origin.write = r.write := by
  rw [write, write, origin_piece h]
  rfl

theorem wellFormed_of_origin (h : r.origin.WellFormed) : r.WellFormed :=
  { h with }

section

variable (h : r'.origin = r.origin)

include h

theorem seqNum_of_origin : r'.seqNum = r.seqNum :=
  show r'.origin.seqNum = r.origin.seqNum by rw [h]

theorem isLoad_of_origin : r'.isLoad = r.isLoad :=
  show r'.origin.isLoad = r.origin.isLoad by rw [h]

theorem fragments_of_origin : r'.fragments = r.fragments :=
  show r'.origin.fragments = r.origin.fragments by rw [h]

theorem contains_of_origin (o : LSQRequest) : o.containsAddrRangeOf r' = o.containsAddrRangeOf r :=
  show o.containsAddrRangeOf r'.origin = o.containsAddrRangeOf r.origin by rw [h]

end

theorem issuedWrite_zero (h : r.numIssuedFragments = 0) (a : ℕ) : r.issuedWrite a = none := by
  rw [issuedWrite, h]
  rfl

theorem issuedWrite_of_write {a : ℕ} (h : r.write a = none) : r.issuedWrite a = none := by
  refine youngest_eq_none.2 fun g hg => ?_
  obtain ⟨f, hf, rfl⟩ := mem_map.1 hg
  exact youngest_eq_none.1 h _ (mem_map_of_mem (mem_of_mem_take hf))

/-- What a store has written is told by what it was and how much it has sent. -/
theorem issuedWrite_of_origin (h : r'.origin = r.origin) (hstore : r'.isLoad = false)
    (hsent : r'.numIssuedFragments = r.numIssuedFragments) : r'.issuedWrite = r.issuedWrite := by
  have hstore' : r.isLoad = false := (isLoad_of_origin h).symm.trans hstore
  rw [issuedWrite, issuedWrite, hsent, fragments_of_origin h, ← origin_piece hstore, h,
    origin_piece hstore']

end LSQRequest

open LSQRequest

def LSQ.origins (L : LSQ) : List LSQRequest := L.all.map origin

def packetsOf (n : ℕ) (q : List InFlight) : List InFlight := q.filter (·.seqNum = n)

variable {q : List InFlight} {p : InFlight} {n : ℕ}

theorem packetsOf_append_self (h : p.seqNum = n) :
    packetsOf n (q ++ [p]) = packetsOf n q ++ [p] := by
  simp [packetsOf, h]

theorem packetsOf_append_of_ne (h : p.seqNum ≠ n) : packetsOf n (q ++ [p]) = packetsOf n q := by
  simp [packetsOf, h]

/-- `E n` is the memory that the request `n` should see, `N` the number of requests pushed. -/
structure Inv (E : ℕ → ℕ → Byte) (N : ℕ) (L : LSQ) : Prop where
  sorted : (L.origins.map (·.seqNum)).Pairwise (· < ·)
  known : ∀ o ∈ L.origins, o.seqNum < N ∧ o.WellFormed
  fresh : ∀ p ∈ L.port.inFlight, p.seqNum < N
  tracked : ∀ r ∈ L.all, r.Tracked (E r.seqNum) (packetsOf r.seqNum L.port.inFlight)
  inSlots : ∀ r ∈ L.slots, r.InSlots
  inTransfers : ∀ r ∈ L.transfers, r.InTransfers
  inRequests : ∀ r ∈ L.requests, r.InRequests
  stores : L.numStoresInTransfers = L.transfers.countP (!·.isLoad)
  ordered : L.slots.Pairwise fun u s => u.sentAllPackets = false → s.Quiet
  issued : ∀ b v, youngest (L.slots.map issuedWrite) b = some v → L.port.mem b = v
  waiting : ∀ n, n = N ∨ n ∈ L.requests.map (·.seqNum) →
    E n = ((L.origins.filter (before n)).map LSQRequest.write).foldl overlay L.port.mem
  apart : ∀ r ∈ L.requests, r.state = .RequestNeedsRetry →
    ∀ o ∈ L.origins, o.before r.seqNum = true → o.containsAddrRangeOf r = .NoAddrRangeCoverage

variable {E : ℕ → ℕ → Byte} {N n : ℕ} {L L' : LSQ} {r r' u : LSQRequest}
  {a b rest l : List LSQRequest} {cfg : Config} {accept sent : Bool} {P P' : Port}

namespace Inv

theorem wellFormed (h : Inv E N L) (hr : r ∈ L.all) : r.WellFormed :=
  wellFormed_of_origin (h.known _ (mem_map_of_mem hr)).2

theorem sorted_all (h : Inv E N L) : L.all.Pairwise fun u s => u.seqNum < s.seqNum := by
  have hsorted := h.sorted
  rw [LSQ.origins, List.map_map] at hsorted
  exact pairwise_map.1 hsorted

theorem seqNum_ne (h : Inv E N L) (hall : (a ++ r :: b).Sublist L.all) (hu : u ∈ a ++ b) :
    u.seqNum ≠ r.seqNum := by
  have hsorted := h.sorted_all.sublist hall
  rw [pairwise_append, pairwise_cons] at hsorted
  rcases mem_append.1 hu with hu | hu
  · exact (hsorted.2.2 u hu r mem_cons_self).ne
  · exact (hsorted.2.1.1 u hu).ne'

theorem slots_sublist (L : LSQ) : L.slots.Sublist L.all := sublist_append_left _ _

theorem transfers_sublist (L : LSQ) : L.transfers.Sublist L.all :=
  (sublist_append_left _ _).trans (sublist_append_right _ _)

theorem requests_sublist (L : LSQ) : L.requests.Sublist L.all :=
  (sublist_append_right _ _).trans (sublist_append_right _ _)

/-- A store that reached `transfers` or the store buffer is before every request that waits. -/
theorem seqNum_lt (h : Inv E N L) (hr : r ∈ L.slots ++ L.transfers)
    (hn : n = N ∨ n ∈ L.requests.map (·.seqNum)) : r.seqNum < n := by
  have hall : L.all = (L.slots ++ L.transfers) ++ L.requests := (append_assoc _ _ _).symm
  rcases hn with rfl | hn
  · exact (h.known r.origin (mem_map_of_mem (hall ▸ mem_append_left _ hr))).1
  · obtain ⟨s, hs, rfl⟩ := mem_map.1 hn
    have hsorted := h.sorted_all
    rw [hall, pairwise_append] at hsorted
    exact hsorted.2.2 r hr s hs

/-- A store of the store buffer is performed before a request that waits. -/
theorem before_waiting (h : Inv E N L) (hr : r ∈ L.slots)
    (hn : n = N ∨ n ∈ L.requests.map (·.seqNum)) : r.origin.before n = true := by
  have hlt : r.seqNum < n := h.seqNum_lt (mem_append_left _ hr) hn
  simp [before, origin, (h.inSlots r hr).1, hlt]

/-- The port has changed for the request `n` at most. -/
structure ChangedFor (N n : ℕ) (P P' : Port) : Prop where
  mem : P'.mem = P.mem
  others : ∀ m, m ≠ n → packetsOf m P'.inFlight = packetsOf m P.inFlight
  fresh : ∀ p ∈ P'.inFlight, p.seqNum < N

theorem changedFor_refl (h : Inv E N L) :
    ChangedFor N n L.port L.port := ⟨rfl, fun _ _ => rfl, h.fresh⟩

theorem changedFor_refused (h : Inv E N L) (hmem : P.mem = L.port.mem)
    (hinFlight : P.inFlight = L.port.inFlight) : ChangedFor N n L.port P :=
  ⟨hmem, fun _ _ => by rw [hinFlight], hinFlight ▸ h.fresh⟩

/-- A packet of a request that is known goes out. -/
theorem fresh_append (h : Inv E N L) (hr : r ∈ L.all) (hp : p.seqNum = r.seqNum) :
    ∀ q ∈ L.port.inFlight ++ [p], q.seqNum < N :=
  forall_mem_append.2 ⟨h.fresh, forall_mem_singleton.2 (hp ▸ (h.known _ (mem_map_of_mem hr)).1)⟩

/-- Only the request that has changed need be looked at. -/
theorem tracked_change (h : Inv E N L) (hall : L.all = a ++ r :: b) (ho : r'.origin = r.origin)
    (ht : r'.Tracked (E r.seqNum) (packetsOf r.seqNum q))
    (hq : ∀ n, n ≠ r.seqNum → packetsOf n q = packetsOf n L.port.inFlight) :
    ∀ u ∈ a ++ r' :: b, u.Tracked (E u.seqNum) (packetsOf u.seqNum q) := by
  intro u hu
  rcases mem_cons.1 (perm_middle.mem_iff.1 hu) with rfl | hu
  · rw [seqNum_of_origin ho]
    exact ht
  · rw [hq _ (h.seqNum_ne (hall ▸ Sublist.refl _) hu)]
    apply h.tracked u
    rw [hall]
    exact perm_middle.mem_iff.2 (mem_cons_of_mem _ hu)

variable (h : Inv E N L)
include h

/-- One request changes its state, or passes to the next queue, and memory stays as it is. -/
theorem change (hall : L.all = a ++ r :: b) (hall' : L'.all = a ++ r' :: b)
    (ho : r'.origin = r.origin) (hP : ChangedFor N r.seqNum L.port L'.port)
    (ht : r'.Tracked (E r.seqNum) (packetsOf r.seqNum L'.port.inFlight))
    (hslots : ∀ r ∈ L'.slots, r.InSlots) (htransfers : ∀ r ∈ L'.transfers, r.InTransfers)
    (hrequests : ∀ r ∈ L'.requests, r.InRequests)
    (hstores : L'.numStoresInTransfers = L'.transfers.countP (!·.isLoad))
    (hordered : L'.slots.Pairwise fun u s => u.sentAllPackets = false → s.Quiet)
    (hissued : ∀ x, youngest (L'.slots.map issuedWrite) x
      = youngest (L.slots.map issuedWrite) x)
    (hwaiting : ∀ n ∈ L'.requests.map (·.seqNum), n ∈ L.requests.map (·.seqNum))
    (hapart : ∀ u ∈ L'.requests, u.state = .RequestNeedsRetry → u ∉ L.requests → ∀ o ∈ L.origins,
      o.before u.seqNum = true → o.containsAddrRangeOf u = .NoAddrRangeCoverage) : Inv E N L' := by
  have horigins : L'.origins = L.origins := by simp [LSQ.origins, hall, hall', ho]
  refine ⟨horigins ▸ h.sorted, horigins ▸ h.known, hP.fresh,
    hall' ▸ h.tracked_change hall ho ht hP.others, hslots, htransfers, hrequests, hstores, hordered,
    ?_, ?_, ?_⟩
  · intro x v hx
    rw [hP.mem]
    exact h.issued x v ((hissued x).symm.trans hx)
  · intro n hn
    rw [horigins, hP.mem]
    exact h.waiting n (hn.imp_right (hwaiting n))
  · intro u hu hstate
    rw [horigins]
    by_cases hold : u ∈ L.requests
    · exact h.apart u hold hstate
    · exact hapart u hu hstate hold

/-! ### One request -/

theorem request_changed (hr : L.requests = a ++ r :: b) (ho : r'.origin = r.origin)
    (hin : r'.InRequests) (hP : ChangedFor N r.seqNum L.port P)
    (ht : r'.Tracked (E r.seqNum) (packetsOf r.seqNum P.inFlight))
    (hapart : r'.state = .RequestNeedsRetry → ∀ o ∈ L.origins, o.before r.seqNum = true →
      o.containsAddrRangeOf r = .NoAddrRangeCoverage) :
    Inv E N { L with requests := a ++ r' :: b, port := P } := by
  have hmem : ∀ u ∈ a ++ r' :: b, u = r' ∨ u ∈ L.requests := by
    intro u hu
    rw [hr]
    simp only [mem_append, mem_cons] at hu ⊢
    tauto
  refine h.change (a := (L.slots ++ L.transfers) ++ a) (b := b) ?_ ?_ ho hP ht h.inSlots
    h.inTransfers ?_ h.stores h.ordered (fun _ => rfl) ?_ ?_
  · simp only [LSQ.all, hr, append_assoc]
  · simp only [LSQ.all, append_assoc]
  · intro u hu
    rcases hmem u hu with rfl | hu
    · exact hin
    · exact h.inRequests u hu
  · intro n hn
    simp only [map_append, map_cons, seqNum_of_origin ho] at hn
    simpa only [hr, map_append, map_cons] using hn
  · intro u hu hstate hnew o ho' hbefore
    rcases hmem u hu with rfl | hu
    · rw [seqNum_of_origin ho] at hbefore
      rw [contains_of_origin ho]
      exact hapart hstate o ho' hbefore
    · exact absurd hu hnew

theorem moved (hr : L.requests = r :: rest) (ho : r'.origin = r.origin) (hin : r'.InTransfers)
    (ht : r'.Tracked (E r.seqNum) (packetsOf r.seqNum L.port.inFlight)) :
    Inv E N (L.moveFromRequestsToTransfers r') := by
  refine h.change (a := L.slots ++ L.transfers) (b := rest) ?_ ?_ ho h.changedFor_refl ht
    h.inSlots ?_ ?_ ?_ h.ordered (fun _ => rfl) ?_ ?_
  · simp only [LSQ.all, hr, append_assoc]
  · simp [LSQ.all, LSQ.moveFromRequestsToTransfers, hr]
  · exact forall_mem_append.2 ⟨h.inTransfers, forall_mem_singleton.2 hin⟩
  · intro u hu
    exact h.inRequests u (mem_of_mem_tail hu)
  · simp only [LSQ.moveFromRequestsToTransfers, countP_append, countP_singleton, h.stores]
    cases r'.isLoad <;> rfl
  · intro n hn
    obtain ⟨u, hu, rfl⟩ := mem_map.1 hn
    exact mem_map_of_mem (mem_of_mem_tail hu)
  · intro u hu _ hnew
    exact absurd (mem_of_mem_tail hu) hnew

theorem transfer_changed (hr : L.transfers = a ++ r :: b) (ho : r'.origin = r.origin)
    (hin : r'.InTransfers) (hP : ChangedFor N r.seqNum L.port P)
    (ht : r'.Tracked (E r.seqNum) (packetsOf r.seqNum P.inFlight)) :
    Inv E N { L with transfers := a ++ r' :: b, port := P } := by
  refine h.change (a := L.slots ++ a) (b := b ++ L.requests) ?_ ?_ ho hP ht h.inSlots ?_
    h.inRequests ?_ h.ordered (fun _ => rfl) (fun _ hn => hn) (fun _ hu _ hnew => absurd hu hnew)
  · simp [LSQ.all, hr]
  · simp [LSQ.all]
  · have hold := h.inTransfers
    rw [hr, forall_mem_append, forall_mem_cons] at hold
    exact forall_mem_append.2 ⟨hold.1, forall_mem_cons.2 ⟨hin, hold.2.2⟩⟩
  · have hl : r'.isLoad = r.isLoad := isLoad_of_origin ho
    simp [h.stores, hr, countP_cons, hl]

/-- A store in the store buffer, if it has sent the same packets. -/
theorem slot_changed (hr : L.slots = a ++ r :: b) (ho : r'.origin = r.origin)
    (hin : r'.InSlots) (hP : ChangedFor N r.seqNum L.port P)
    (hsent : r'.numIssuedFragments = r.numIssuedFragments)
    (hquiet : ∀ u ∈ a, u.sentAllPackets = false → r.Quiet → r'.Quiet)
    (ht : r'.Tracked (E r.seqNum) (packetsOf r.seqNum P.inFlight)) :
    Inv E N { L with slots := a ++ r' :: b, port := P } := by
  refine h.change (a := a) (b := b ++ (L.transfers ++ L.requests)) ?_ ?_ ho hP ht ?_
    h.inTransfers h.inRequests h.stores ?_ ?_ (fun _ hn => hn) (fun _ hu _ hnew => absurd hu hnew)
  · simp [LSQ.all, hr]
  · simp [LSQ.all]
  · have hold := h.inSlots
    rw [hr, forall_mem_append, forall_mem_cons] at hold
    exact forall_mem_append.2 ⟨hold.1, forall_mem_cons.2 ⟨hin, hold.2.2⟩⟩
  · have hold := h.ordered
    have hall : r'.sentAllPackets = r.sentAllPackets := by
      rw [sentAllPackets, sentAllPackets, hsent, fragments_of_origin ho]
    rw [hr, pairwise_append, pairwise_cons] at hold
    refine pairwise_append.2 ⟨hold.1, pairwise_cons.2 ⟨hall ▸ hold.2.1.1, hold.2.1.2⟩, ?_⟩
    intro u hu s hs hunsent
    rcases mem_cons.1 hs with rfl | hs
    · exact hquiet u hu hunsent (hold.2.2 u hu r mem_cons_self hunsent)
    · exact hold.2.2 u hu s (mem_cons_of_mem _ hs) hunsent
  · intro x
    simp [hr, issuedWrite_of_origin ho hin.1 hsent]

/-! ### The store buffer -/

/-- The first store that has packets left sends one. -/
theorem slot_sent {f : Fragment} (hr : L.slots = a ++ r :: b)
    (hf : r.fragments[r.numIssuedFragments]? = some f) (ha : ∀ u ∈ a, u.sentAllPackets = true)
    (hmem : P.mem = overlay L.port.mem (r.piece f))
    (hinFlight : P.inFlight = L.port.inFlight ++ [p]) (hp : p.seqNum = r.seqNum)
    (hindex : p.index = r.numIssuedFragments) :
    Inv E N { L with slots := a ++ r.stepToNextPacket .StoreBufferIssuing :: b, port := P } := by
  have hrs : r ∈ L.slots := hr ▸ mem_append_right _ mem_cons_self
  have hstore : r.isLoad = false := (h.inSlots r hrs).1
  have hall : L.all = a ++ r :: (b ++ (L.transfers ++ L.requests)) := by
    simp [LSQ.all, hr]
  have hrall : r ∈ L.all := hall ▸ mem_append_right _ mem_cons_self
  have hlt : r.numIssuedFragments < r.fragments.length := (List.getElem?_eq_some_iff.1 hf).1
  have hslots := h.inSlots
  have hordered := h.ordered
  rw [hr, forall_mem_append, forall_mem_cons] at hslots
  rw [hr, pairwise_append, pairwise_cons] at hordered
  -- the stores behind it have sent nothing
  have hb : ∀ s ∈ b, s.Quiet := fun s hs =>
    hordered.2.1.1 s hs (by simpa [sentAllPackets] using hlt.ne)
  have hq : ∀ n, n ≠ r.seqNum → packetsOf n P.inFlight = packetsOf n L.port.inFlight := by
    intro n hn
    rw [hinFlight, packetsOf_append_of_ne (hp ▸ hn.symm)]
  have ht : (r.stepToNextPacket .StoreBufferIssuing).Tracked _ _ :=
    (h.tracked r hrall).sent (by decide) hf hindex
      (fun hl => absurd (hstore.symm.trans hl) (by decide))
  have ho : (r.stepToNextPacket .StoreBufferIssuing).origin = r.origin := rfl
  have horigins : LSQ.origins { L with
      slots := a ++ r.stepToNextPacket .StoreBufferIssuing :: b, port := P } = L.origins := by
    simp only [LSQ.origins, LSQ.all, hr, map_append, map_cons]
    rfl
  refine ⟨horigins ▸ h.sorted, horigins ▸ h.known, ?_, ?_, ?_, h.inTransfers, h.inRequests,
    h.stores, ?_, ?_, ?_, ?_⟩
  · exact hinFlight ▸ h.fresh_append hrall hp
  · intro u hu
    refine h.tracked_change hall ho ?_ hq u ?_
    · rw [hinFlight, packetsOf_append_self hp]
      exact ht
    · simpa only [LSQ.all, append_assoc, cons_append] using hu
  · exact forall_mem_append.2 ⟨hslots.1, forall_mem_cons.2 ⟨⟨hstore, .inr (.inl rfl)⟩, hslots.2.2⟩⟩
  · refine pairwise_append.2 ⟨hordered.1,
      pairwise_cons.2 ⟨fun s hs _ => hb s hs, hordered.2.1.2⟩, ?_⟩
    intro u hu s _ hunsent
    exact absurd (ha u hu) (by simp [hunsent])
  · -- the new piece is the youngest write at its bytes, and nothing changes at the others
    intro x v hx
    have hnone : ∀ g ∈ b.map issuedWrite, g x = none := by
      intro g hg
      obtain ⟨s, hs, rfl⟩ := mem_map.1 hg
      exact issuedWrite_zero (hb s hs).1 x
    have htake : r.fragments.take (r.numIssuedFragments + 1) =
        r.fragments.take r.numIssuedFragments ++ [f] := by
      rw [take_add_one, hf]
      rfl
    have hnew : (r.stepToNextPacket .StoreBufferIssuing).issuedWrite x
        = (r.piece f x).or (r.issuedWrite x) := by
      change youngest ((r.fragments.take (r.numIssuedFragments + 1)).map r.piece) x = _
      rw [htake, map_append, youngest_append, map_singleton, youngest_singleton]
      rfl
    have hold := h.issued x v
    rw [hr, map_append, map_cons, youngest_of_last hnone] at hold
    rw [map_append, map_cons, youngest_of_last hnone, hnew] at hx
    rw [hmem, overlay]
    cases hpiece : r.piece f x with
    | none =>
      rw [hpiece, none_or] at hx
      exact hold hx
    | some w =>
      rw [hpiece] at hx
      exact some.inj hx
  · intro n hn
    rw [horigins]
    refine (h.waiting n hn).trans (foldl_overlay_congr ?_).symm
    intro x hx
    -- the store itself is among those that are performed on top
    have hbefore : r.origin ∈ L.origins.filter (before n) :=
      mem_filter.2 ⟨mem_map_of_mem hrall, h.before_waiting hrs hn⟩
    have hwrite := hx _ (mem_map_of_mem hbefore)
    rw [origin_write hstore] at hwrite
    rw [hmem, overlay, youngest_eq_none.1 hwrite _ (mem_map_of_mem (mem_of_getElem? hf))]
    rfl
  · intro u hu hstate
    rw [horigins]
    exact h.apart u hu hstate

/-! ### Leaving the queues -/

theorem erased (hall : L.all = a ++ r :: b) (hall' : L'.all = a ++ b)
    (hslots : L'.slots.Sublist L.slots) (htransfers : L'.transfers.Sublist L.transfers)
    (hrequests : L'.requests = L.requests) (hP : ChangedFor N r.seqNum L.port L'.port)
    (hstores : L'.numStoresInTransfers = L'.transfers.countP (!·.isLoad))
    (hissued : ∀ x v, youngest (L'.slots.map issuedWrite) x = some v → L.port.mem x = v)
    (hwaiting : ∀ n, n = N ∨ n ∈ L.requests.map (·.seqNum) →
      ((L.origins.filter (before n)).map LSQRequest.write).foldl overlay L.port.mem
        = ((L'.origins.filter (before n)).map LSQRequest.write).foldl overlay L.port.mem) :
    Inv E N L' := by
  have hsub : L'.all.Sublist L.all := by
    rw [hall, hall']
    exact Sublist.append_left (sublist_cons_self r b) a
  have horigins : L'.origins.Sublist L.origins := hsub.map _
  refine ⟨h.sorted.sublist (horigins.map _), fun o ho => h.known o (horigins.subset ho),
    hP.fresh, ?_, fun u hu => h.inSlots u (hslots.subset hu),
    fun u hu => h.inTransfers u (htransfers.subset hu), hrequests ▸ h.inRequests, hstores,
    h.ordered.sublist hslots, hP.mem ▸ hissued, ?_, ?_⟩
  · intro u hu
    rw [hP.others _ (h.seqNum_ne (hall ▸ Sublist.refl _) (hall' ▸ hu))]
    exact h.tracked u (hsub.subset hu)
  · intro n hn
    rw [hrequests] at hn
    rw [hP.mem, ← hwaiting n hn]
    exact h.waiting n hn
  · intro u hu hstate o ho
    exact h.apart u (hrequests ▸ hu) hstate o (horigins.subset ho)

/-- The store whose last packet is answered leaves, if no older store of the store buffer has a byte
of it. -/
theorem slot_removed (hr : L.slots = a ++ r :: b)
    (hsent : r.numIssuedFragments = r.fragments.length) (hP : ChangedFor N r.seqNum L.port P)
    (hfree : ∀ u ∈ a, ∀ x v, r.write x = some v → u.write x = none) :
    Inv E N { L with slots := a ++ b, port := P } := by
  have hrs : r ∈ L.slots := hr ▸ mem_append_right _ mem_cons_self
  have hstore : r.isLoad = false := (h.inSlots r hrs).1
  have hfull : r.issuedWrite = r.write := by rw [issuedWrite, hsent, take_length, LSQRequest.write]
  have hsub : (a ++ b).Sublist L.slots := hr ▸ Sublist.append_left (sublist_cons_self r b) a
  -- an older store has sent nothing to a byte of `r`, and a younger one that has is the youngest
  have hissued := h.issued
  rw [hr, map_append, map_cons, hfull] at hissued
  have hfree' : ∀ x v, r.write x = some v → ∀ g ∈ a.map issuedWrite, g x = none := by
    intro x v hv g hg
    obtain ⟨u, hu, rfl⟩ := mem_map.1 hg
    exact issuedWrite_of_write (hfree u hu x v hv)
  refine h.erased (a := a) (b := b ++ (L.transfers ++ L.requests)) ?_ ?_ hsub (Sublist.refl _)
    rfl hP h.stores ?_ ?_
  · simp [LSQ.all, hr]
  · simp only [LSQ.all, append_assoc]
  · intro x v hx
    apply hissued x v
    rw [map_append, youngest_append] at hx
    rw [append_cons, youngest_append, youngest_append, youngest_singleton]
    cases hw : r.write x with
    | none => exact hx
    | some w =>
      rw [youngest_eq_none.2 (hfree' x w hw), or_none] at hx
      rw [hx]
      rfl
  · intro n hn
    have hbefore := h.before_waiting hrs hn
    simp only [LSQ.origins, LSQ.all, hr, map_append, map_cons, filter_append,
      filter_cons_of_pos hbefore, append_assoc, cons_append, origin_write hstore]
    apply foldl_overlay_erase
    intro x v hv hyounger
    constructor
    · intro g hg
      obtain ⟨o, ho, rfl⟩ := mem_map.1 hg
      obtain ⟨u, hu, rfl⟩ := mem_map.1 (mem_filter.1 ho).1
      rw [origin_write (h.inSlots u (hr ▸ mem_append_left _ hu)).1]
      exact hfree u hu x v hv
    · -- the slots behind it are all before `n`, so that none of them writes the byte
      apply hissued x v
      rw [youngest_of_last, hv]
      · rfl
      · intro g hg
        obtain ⟨s, hs, rfl⟩ := mem_map.1 hg
        have hss : s ∈ L.slots := hr ▸ mem_append_right _ (mem_cons_of_mem _ hs)
        have hsb := h.before_waiting hss hn
        have hnone := hyounger s.origin.write
          (mem_append_left _ (mem_map_of_mem (mem_filter.2 ⟨mem_map_of_mem hs, hsb⟩)))
        rw [origin_write (h.inSlots s hss).1] at hnone
        exact issuedWrite_of_write hnone

end Inv

/-! ## Sending -/

theorem tryToSend_cases (h : tryToSend cfg accept P r = some (P', r', sent)) :
    (P' = P ∧ r' = r ∧ sent = false) ∨
    (∃ f state, r.fragments[r.numIssuedFragments]? = some f ∧ r.state.sent = some state ∧
      P' = P.performed r f ∧ r' = r.stepToNextPacket state ∧ sent = r'.sentAllPackets) ∨
    (∃ state, r.state.refused = some state ∧ P'.mem = P.mem ∧ P'.inFlight = P.inFlight ∧
      r' = { r with state } ∧ sent = false) := by
  rw [tryToSend] at h
  by_cases hcan : P.canSendToMemorySystem cfg = true
  · rw [if_pos hcan] at h
    cases hf : r.fragments[r.numIssuedFragments]? with
    | none =>
      rw [hf] at h
      cases h
    | some f =>
      rw [hf] at h
      cases accept
      · cases hs : r.state.refused with
        | none => simp [hs] at h
        | some state =>
          simp only [hs, bind_eq_bind, bind_some, Option.pure_def, Bool.false_eq_true,
            if_false] at h
          cases h
          exact .inr (.inr ⟨state, rfl, rfl, rfl, rfl, rfl⟩)
      · cases hs : r.state.sent with
        | none => simp [hs] at h
        | some state =>
          simp only [hs, bind_eq_bind, bind_some, Option.pure_def, if_true] at h
          cases h
          exact .inr (.inl ⟨f, state, rfl, rfl, rfl, rfl, rfl⟩)
  · rw [if_neg hcan] at h
    cases h
    exact .inl ⟨rfl, rfl, rfl⟩

namespace Inv

theorem unissued (h : Inv E N L) (n : ℕ) : Inv E N { L with numUnissuedAccesses := n } :=
  { h with }

theorem flags (h : Inv E N L) (hmem : P.mem = L.port.mem)
    (hinFlight : P.inFlight = L.port.inFlight) : Inv E N { L with port := P } :=
  { h with
    fresh := hinFlight ▸ h.fresh, tracked := hinFlight ▸ h.tracked, issued := hmem ▸ h.issued,
    waiting := hmem ▸ h.waiting }

theorem trySlot (h : Inv E N L) (hr : L.slots = a ++ r :: b) (ha : ∀ u ∈ a, u.sentAllPackets = true)
    (hs : tryToSend cfg accept L.port r = some (P, r', sent)) :
    Inv E N { L with slots := a ++ r' :: b, port := P } ∧
    (sent = true → r'.sentAllPackets = true) := by
  have hrs : r ∈ L.slots := hr ▸ mem_append_right _ mem_cons_self
  obtain ⟨hstore, hstate⟩ := h.inSlots r hrs
  have htracked := h.tracked r (mem_append_left _ hrs)
  rcases tryToSend_cases hs with ⟨rfl, rfl, rfl⟩ | ⟨f, state, hf, hst, rfl, rfl, rfl⟩ |
    ⟨state, hst, hmem, hin, rfl, rfl⟩
  · rw [← hr]
    exact ⟨h, by simp⟩
  · obtain rfl : state = .StoreBufferIssuing := by
      rcases hstate with hc | hc | hc <;> rw [hc] at hst <;> cases hst <;> rfl
    refine ⟨h.slot_sent hr hf ha ?_ rfl rfl rfl, id⟩
    simp [Port.performed, hstore]
  · obtain rfl : state = .StoreBufferNeedsRetry := by
      rcases hstate with hc | hc | hc <;> rw [hc] at hst <;> cases hst <;> rfl
    refine ⟨h.slot_changed hr rfl ⟨hstore,
      .inr (.inr rfl)⟩ (h.changedFor_refused hmem hin) rfl ?_ ?_, by simp⟩
    · intro u hu hunsent
      exact absurd (ha u hu) (by simp [hunsent])
    · rw [hin]
      exact htracked.restated (by decide)

variable {accepts : List Bool}

/-- The loop of `step`: the slots that it has passed have sent all their packets. -/
theorem issueStores {slots slots' : List LSQRequest} {count issued : ℕ}
    (h : Inv E N { L with slots := a ++ slots, port := P }) (ha : ∀ u ∈ a, u.sentAllPackets = true)
    (hs : LSQ.issueStores cfg accepts count P slots = some (slots', P', issued)) :
    Inv E N { L with slots := a ++ slots', port := P' } := by
  induction slots generalizing a accepts count P slots' issued with
  | nil =>
    cases hs
    exact h
  | cons r rest ih =>
    rw [LSQ.issueStores] at hs
    split at hs
    case isFalse =>
      cases hs
      exact h
    case isTrue =>
      split at hs
      case isTrue hskip =>
        obtain ⟨⟨rest', P₁, k⟩, hrest, hs⟩ := bind_eq_some_iff.1 hs
        cases hs
        rw [append_cons] at h ⊢
        exact ih h (forall_mem_append.2 ⟨ha, forall_mem_singleton.2 hskip.2⟩) hrest
      case isFalse =>
        obtain ⟨⟨P₁, r₁, sent⟩, hsend, hs⟩ := bind_eq_some_iff.1 hs
        obtain ⟨h₁, hall⟩ := h.trySlot rfl ha hsend
        cases sent with
        | false =>
          cases hs
          exact h₁
        | true =>
          obtain ⟨⟨rest', P₂, k⟩, hrest, hs⟩ := bind_eq_some_iff.1 hs
          cases hs
          have h₂ : Inv E N { L with slots := (a ++ [r₁]) ++ rest, port := P₁ } := by
            rw [← append_cons]
            exact h₁
          rw [append_cons]
          exact ih h₂ (forall_mem_append.2 ⟨ha, forall_mem_singleton.2 (hall rfl)⟩) hrest

section Steps

variable (h : Inv E N L)
include h

theorem stepStoreBuffer (hs : L.stepStoreBuffer cfg accepts = some L') : Inv E N L' := by
  rw [LSQ.stepStoreBuffer] at hs
  split at hs
  · obtain ⟨⟨slots, port, issued⟩, hloop, hs⟩ := bind_eq_some_iff.1 hs
    cases hs
    have hloop' : Inv E N { L with slots := slots, port := port } :=
      issueStores (a := []) (show Inv E N { L with slots := L.slots, port := L.port } from h)
        (by simp) hloop
    exact hloop'.unissued _
  · cases hs
    exact h

/-! ### Loads -/

/-- Where no store before it has coverage, a load should see memory as it is. -/
theorem sees_memory (hr : r ∈ L.requests)
    (hno : ∀ o ∈ L.origins, o.before r.seqNum = true →
    o.containsAddrRangeOf r = .NoAddrRangeCoverage) {x : ℕ} (hlo : r.paddr ≤ x)
    (hhi : x < r.paddr + r.size) : E r.seqNum x = L.port.mem x := by
  have hwf := h.wellFormed ((requests_sublist L).subset hr)
  have hnone : youngest ((L.origins.filter (before r.seqNum)).map LSQRequest.write) x = none := by
    refine youngest_eq_none.2 fun g hg => ?_
    obtain ⟨o, ho, rfl⟩ := mem_map.1 hg
    obtain ⟨ho, hbefore⟩ := mem_filter.1 ho
    exact write_of_noCoverage (h.known o ho).2 hwf (hno o ho hbefore) hlo hhi
  rw [h.waiting _ (.inr (mem_map_of_mem hr)), foldl_overlay, hnone]
  rfl

/-- The stores before the request at the front are in the store buffer, if none is in
`transfers`. -/
theorem stores_before_front (hr : L.requests = r :: rest) (hnone : L.numStoresInTransfers = 0) :
    L.origins.filter (before r.seqNum) = L.slots.map origin := by
  have hslots : (L.slots.map origin).filter (before r.seqNum) = L.slots.map origin := by
    refine filter_eq_self.2 fun o ho => ?_
    obtain ⟨s, hs, rfl⟩ := mem_map.1 ho
    exact h.before_waiting hs (.inr (by rw [hr]; exact mem_map_of_mem mem_cons_self))
  have htransfers : (L.transfers.map origin).filter (before r.seqNum) = [] := by
    refine filter_eq_nil_iff.2 fun o ho => ?_
    obtain ⟨s, hs, rfl⟩ := mem_map.1 ho
    have hload := countP_eq_zero.1 (h.stores.symm.trans hnone) s hs
    simp only [Bool.not_eq_true', Bool.not_eq_false] at hload
    simp [before, origin, hload]
  have hrequests : (L.requests.map origin).filter (before r.seqNum) = [] := by
    have hsorted := h.sorted_all
    rw [LSQ.all, ← append_assoc, pairwise_append, hr, pairwise_cons] at hsorted
    refine filter_eq_nil_iff.2 fun o ho => ?_
    obtain ⟨s, hs, rfl⟩ := mem_map.1 ho
    rw [hr] at hs
    have hle : r.seqNum ≤ s.seqNum := by
      rcases mem_cons.1 hs with rfl | hs
      · exact le_rfl
      · exact (hsorted.2.1.1 s hs).le
    have hlt : ¬ s.seqNum < r.seqNum := not_lt.2 hle
    simp [before, origin, hlt]
  rw [LSQ.origins, LSQ.all, map_append, map_append, filter_append, filter_append, hslots,
    htransfers, hrequests, append_nil, append_nil]

/-- The load at the front sends a packet, if no store before it has coverage. `r₀` is the load as it
stands in the queue. -/
theorem sendLoad {r₀ : LSQRequest} (hr : L.requests = r₀ :: rest) (ho : r.origin = r₀.origin)
    (hl : r.isLoad = true) (hstate : r.state = .Translated ∨ r.state = .RequestIssuing)
    (ht : r.Tracked (E r₀.seqNum) (packetsOf r₀.seqNum L.port.inFlight))
    (hno : ∀ o ∈ L.origins, o.before r₀.seqNum = true →
    o.containsAddrRangeOf r₀ = .NoAddrRangeCoverage)
    (hs : L.sendLoad cfg accept r rest = some L') : Inv E N L' := by
  have hr₀ : r₀ ∈ L.requests := hr ▸ mem_cons_self
  have hall₀ : r₀ ∈ L.all := (requests_sublist L).subset hr₀
  have hwf : r.WellFormed := wellFormed_of_origin (ho ▸ (h.known _ (mem_map_of_mem hall₀)).2)
  have hsame : r.paddr = r₀.paddr ∧ r.size = r₀.size := by
    constructor
    · exact (congrArg paddr ho : r.origin.paddr = r₀.origin.paddr)
    · exact (congrArg LSQRequest.size ho : r.origin.size = r₀.origin.size)
  obtain ⟨⟨P, r', sent⟩, hsend, hs⟩ := bind_eq_some_iff.1 hs
  obtain ⟨hin, _, hinv⟩ : r'.InTransfers ∧ r'.origin = r₀.origin ∧
      Inv E N { L with requests := r' :: rest, port := P } := by
    rcases tryToSend_cases hsend with ⟨rfl, rfl, rfl⟩ | ⟨f, state, hf, hst, rfl, rfl, rfl⟩ |
      ⟨state, hst, hmem, hinFlight, rfl, rfl⟩
    · have hin : r'.LoadState := by
        rcases hstate with hc | hc
        · exact .inr (.inl hc)
        · exact .inr (.inr (.inl hc))
      exact ⟨.inl ⟨hl, hin⟩, ho,
        h.request_changed (a := []) hr ho (.inl ⟨hl, hin⟩) h.changedFor_refl ht fun _ => hno⟩
    · obtain rfl : state = .RequestIssuing := by
        rcases hstate with hc | hc <;> rw [hc] at hst <;> cases hst <;> rfl
      have hin : (r.stepToNextPacket .RequestIssuing).LoadState := .inr (.inr (.inl rfl))
      have hfm := mem_of_getElem? hf
      have hseq : r.seqNum = r₀.seqNum := seqNum_of_origin ho
      refine ⟨.inl ⟨hl, hin⟩, ho, h.request_changed (a := []) hr ho (.inl ⟨hl, hin⟩) ⟨?_, ?_,
        ?_⟩ ?_ (fun hc => by cases hc)⟩
      · simp [Port.performed, hl]
      · intro n hn
        exact packetsOf_append_of_ne (by rw [hseq]; exact hn.symm)
      · exact h.fresh_append hall₀ hseq
      · -- what memory answers is what the load should see
        rw [Port.performed, packetsOf_append_self hseq]
        refine ht.sent (by decide) hf rfl fun _ k hk => ?_
        have hinside := hwf.inside f hfm
        have hcontiguous := hwf.contiguous f hfm
        exact (h.sees_memory hr₀ hno (by omega) (by omega)).symm
    · obtain rfl : state = .RequestNeedsRetry := by
        rcases hstate with hc | hc <;> rw [hc] at hst <;> cases hst <;> rfl
      have hin : LSQRequest.LoadState { r with state := .RequestNeedsRetry } :=
        .inr (.inr (.inr (.inl rfl)))
      refine ⟨.inl ⟨hl, hin⟩, ho,
        h.request_changed (a := []) hr ho (.inl ⟨hl, hin⟩) (h.changedFor_refused hmem hinFlight) ?_
        fun _ => hno⟩
      rw [hinFlight]
      exact ht.restated (by decide)
  cases sent
  · cases hs
    exact hinv
  · cases hs
    refine hinv.moved rfl rfl hin (hinv.tracked r' ?_)
    exact mem_append_right _ (mem_append_right _ mem_cons_self)

/-- The data of the youngest store with coverage is what the load should see. -/
theorem forward {store : LSQRequest} (hr : L.requests = r :: rest) (hl : r.isLoad = true)
    (hnone : L.numStoresInTransfers = 0)
    (hfull : canForwardDataToLoad r L.slots.reverse = (.FullAddrRangeCoverage, some store)) :
    Inv E N (L.moveFromRequestsToTransfers (forwardStoreData r store)) := by
  have hrr : r ∈ L.requests := hr ▸ mem_cons_self
  have hrall : r ∈ L.all := (requests_sublist L).subset hrr
  have hwf := h.wellFormed hrall
  obtain ⟨younger, older, hslots, hcov, hno⟩ := canForward_full hfull
  have hslots' : L.slots = older.reverse ++ store :: younger.reverse := by
    rw [← reverse_reverse L.slots, hslots]
    simp
  have hmem : ∀ s ∈ younger ++ store :: older, s ∈ L.slots :=
    fun s hs => mem_reverse.1 (hslots ▸ hs)
  have hstore := hmem store (mem_append_right _ mem_cons_self)
  refine h.moved hr ?_ (.inl ⟨hl, .inr (.inr (.inr (.inr rfl)))⟩)
    ((h.tracked r hrall).forwarded hwf ?_)
  · simp [origin, forwardStoreData, hl]
  · intro k hk
    have hwaiting := congrFun (h.waiting _ (.inr (mem_map_of_mem hrr))) (r.paddr + k)
    have hwrites : (L.slots.map origin).map LSQRequest.write = L.slots.map LSQRequest.write := by
      rw [List.map_map]
      exact map_congr_left fun s hs => origin_write (h.inSlots s hs).1
    have hyounger : ∀ g ∈ younger.reverse.map LSQRequest.write, g (r.paddr + k) = none := by
      intro g hg
      obtain ⟨s, hs, rfl⟩ := mem_map.1 hg
      have hs' : s ∈ younger := mem_reverse.1 hs
      exact write_of_noCoverage
        (h.wellFormed (mem_append_left _ (hmem s (mem_append_left _ hs')))) hwf (hno s hs')
        (by omega) (by omega)
    have hbyte := write_of_fullCoverage (h.wellFormed (mem_append_left _ hstore)) hwf hcov hk
    rw [h.stores_before_front hr hnone, hwrites, foldl_overlay, hslots', map_append, map_cons,
      youngest_of_last hyounger, hbyte] at hwaiting
    exact hwaiting.symm

/-! ### The front of `requests` -/

theorem sendFront (hr : L.requests = r :: rest)
    (hstate : r.state = .Translated ∨ r.state = .RequestIssuing)
    (hs : L.sendFront cfg accept r rest = some L') : Inv E N L' := by
  have hrr : r ∈ L.requests := hr ▸ mem_cons_self
  have ht := h.tracked r ((requests_sublist L).subset hrr)
  rw [LSQ.sendFront] at hs
  by_cases hl : r.isLoad = true
  · rw [if_pos hl] at hs
    by_cases hstores : L.numStoresInTransfers = 0
    · rw [if_neg (not_not.2 hstores)] at hs
      split at hs
      case h_1 store hfull =>
        cases hs
        exact h.forward hr hl hstores hfull
      case h_2 found hnone =>
        by_cases hcan : L.port.canSendToMemorySystem cfg = true
        · rw [if_pos hcan] at hs
          refine h.sendLoad hr rfl hl hstate ht ?_ hs
          intro o ho hbefore
          have hmem : o ∈ L.slots.map origin :=
            h.stores_before_front hr hstores ▸ mem_filter.2 ⟨ho, hbefore⟩
          obtain ⟨s, hs', rfl⟩ := mem_map.1 hmem
          exact canForward_none hnone s (mem_reverse.2 hs')
        · rw [if_neg hcan] at hs
          cases hs
          exact h
      case h_3 =>
        cases hs
        exact h
    · rw [if_pos hstores] at hs
      cases hs
      exact h
  · rw [if_neg hl] at hs
    cases hs
    rw [Bool.not_eq_true] at hl
    have hissued : r.numIssuedFragments = 0 := by
      rcases h.inRequests r hrr with hload | hstore
      · exact absurd (hl.symm.trans hload.1) (by decide)
      · exact hstore.2.1
    exact h.moved hr rfl (.inr ⟨hl, hissued, rfl⟩) (ht.restated (by decide))

theorem tryToSendToTransfers (hs : L.tryToSendToTransfers cfg accept n = some L') : Inv E N L' := by
  rw [LSQ.tryToSendToTransfers] at hs
  by_cases hretry : L.port.memoryNeedsRetry = true
  · rw [if_pos hretry] at hs
    cases hs
    exact h
  rw [if_neg hretry] at hs
  split at hs
  case h_1 =>
    cases hs
    exact h
  case h_2 r rest hr =>
    have hrr : r ∈ L.requests := hr ▸ mem_cons_self
    by_cases hseq : r.seqNum ≠ n
    · rw [if_pos hseq] at hs
      cases hs
      exact h
    rw [if_neg hseq] at hs
    have hfront : (r.state = .Translated ∨ r.state = .RequestIssuing) →
        (if L.transfers.length < cfg.transfersSize then L.sendFront cfg accept r rest else some L) =
        some L' → Inv E N L' := by
      intro hstate hs
      split at hs
      · exact h.sendFront hr hstate hs
      · cases hs
        exact h
    split at hs
    case h_1 =>
      cases hs
      exact h
    case h_2 hstate => exact hfront (.inl hstate) hs
    case h_3 hstate => exact hfront (.inr hstate) hs
    case h_5 => cases hs
    case h_4 hstate =>
      -- a store is never complete here, and a load that is passes on as it is
      split at hs
      · cases hs
        refine h.moved hr rfl ?_ (h.tracked r ((requests_sublist L).subset hrr))
        rcases h.inRequests r hrr with hload | ⟨_, _, hc | hc⟩
        · exact .inl hload
        · exact absurd (hstate.symm.trans hc) (by decide)
        · exact absurd (hstate.symm.trans hc) (by decide)
      · cases hs
        exact h

theorem step (hs : L.step cfg accepts = some L') : Inv E N L' := by
  rw [LSQ.step] at hs
  split at hs
  · exact h.stepStoreBuffer hs
  · obtain ⟨L₁, hfront, hs⟩ := bind_eq_some_iff.1 hs
    exact (h.tryToSendToTransfers hfront).stepStoreBuffer hs

/-! ### Translations, retries and responses -/

end Steps

theorem updateIn_of_ne (h : ∀ u ∈ l, u.seqNum ≠ r.seqNum) : updateIn r l = l := by
  conv_rhs => rw [← map_id l]
  exact map_congr_left fun u hu => if_neg (h u hu)

theorem updateIn_append_cons (hseq : r'.seqNum = r.seqNum) (h : ∀ u ∈ a ++ b, u.seqNum ≠ r.seqNum) :
    updateIn r' (a ++ r :: b) = a ++ r' :: b := by
  obtain ⟨ha, hb⟩ := forall_mem_append.1 h
  calc updateIn r' (a ++ r :: b)
      = updateIn r' a ++ (if r.seqNum = r'.seqNum then r' else r) :: updateIn r' b := by
        simp [updateIn]
    _ = a ++ r' :: b := by
        rw [updateIn_of_ne (hseq ▸ ha), updateIn_of_ne (hseq ▸ hb), if_pos hseq.symm]

section

variable (h : Inv E N L)

include h

theorem updateIn_of_mem (hl : l.Sublist L.all) (hr : r ∈ l)
    (hseq : r'.seqNum = r.seqNum) : ∃ a b, l = a ++ r :: b ∧ updateIn r' l = a ++ r' :: b := by
  obtain ⟨a, b, rfl⟩ := append_of_mem hr
  exact ⟨a, b, rfl, updateIn_append_cons hseq fun u hu => h.seqNum_ne hl hu⟩

theorem seqNum_ne_of_append {l₁ l₂ : List LSQRequest} (hl : (l₁ ++ l₂).Sublist L.all) (hr : r ∈ l₁)
    (hu : u ∈ l₂) : u.seqNum ≠ r.seqNum :=
  ((pairwise_append.1 (h.sorted_all.sublist hl)).2.2 r hr u hu).ne'

theorem finish (hs : L.finish cfg accept n = some L') : Inv E N L' := by
  obtain ⟨r, hfind, hs⟩ := bind_eq_some_iff.1 hs
  have hr := mem_of_find?_eq_some hfind
  by_cases hstate : r.state = .InTranslation
  · rw [if_pos hstate] at hs
    obtain ⟨a, b, hab, hupdate⟩ := h.updateIn_of_mem (requests_sublist L) hr
      (show seqNum { r with state := .Translated } = r.seqNum from rfl)
    rw [hupdate] at hs
    refine tryToSendToTransfers ?_ hs
    refine h.request_changed hab rfl ?_ h.changedFor_refl ?_ (fun hc => by cases hc)
    · rcases h.inRequests r hr with hload | hstore
      · exact .inl ⟨hload.1, .inr (.inl rfl)⟩
      · exact .inr ⟨hstore.1, hstore.2.1, .inr rfl⟩
    · exact (h.tracked r ((requests_sublist L).subset hr)).restated (by decide)
  · rw [if_neg hstate] at hs
    cases hs

theorem retryStore (hr : r ∈ L.slots) (hs : L.retryStore cfg accept r = some L') : Inv E N L' := by
  rw [LSQ.retryStore] at hs
  by_cases hstate : r.state = .StoreBufferNeedsRetry
  · rw [if_pos hstate] at hs
    obtain ⟨⟨P, r', sent⟩, hsend, hs⟩ := bind_eq_some_iff.1 hs
    cases hs
    have hseq : r'.seqNum = r.seqNum := by
      rcases tryToSend_cases hsend with ⟨_, rfl, _⟩ | ⟨_, _, _, _, _, rfl, _⟩ |
        ⟨_, _, _, _, rfl, _⟩ <;> rfl
    obtain ⟨a, b, hab, hupdate⟩ := h.updateIn_of_mem (slots_sublist L) hr hseq
    have hordered := h.ordered
    rw [hab, pairwise_append] at hordered
    -- it was tried, so that the stores before it have sent everything
    have ha : ∀ u ∈ a, u.sentAllPackets = true := by
      intro u hu
      by_contra hunsent
      have hquiet := hordered.2.2 u hu r mem_cons_self (by simpa using hunsent)
      exact absurd (hstate.symm.trans hquiet.2) (by decide)
    have h₁ : Inv E N { L with
        slots := a ++ { r with state := .StoreInStoreBuffer } :: b, port := L.port } := by
      refine h.slot_changed hab rfl ⟨(h.inSlots r hr).1, .inl rfl⟩ h.changedFor_refl rfl ?_ ?_
      · intro u hu hunsent
        exact absurd (ha u hu) (by simp [hunsent])
      · exact (h.tracked r ((slots_sublist L).subset hr)).restated (by decide)
    rw [hupdate]
    exact (h₁.trySlot rfl ha hsend).1.unissued _
  · rw [if_neg hstate] at hs
    cases hs

theorem retry (hs : L.retry cfg accept n = some L') : Inv E N L' := by
  have hslot : (L.slots.find? (·.seqNum = n)).bind (L.retryStore cfg accept) = some L' →
      Inv E N L' := by
    intro hs
    obtain ⟨r, hfound, hs⟩ := bind_eq_some_iff.1 hs
    exact h.retryStore (mem_of_find?_eq_some hfound) hs
  rw [LSQ.retry] at hs
  split at hs
  case h_1 => exact hslot hs
  case h_2 r rest hr =>
    split at hs
    case isFalse => exact hslot hs
    case isTrue =>
      by_cases hstate : r.state = .RequestNeedsRetry
      · rw [if_pos hstate] at hs
        have hrr : r ∈ L.requests := hr ▸ mem_cons_self
        have hl : r.isLoad = true := by
          rcases h.inRequests r hrr with hload | ⟨_, _, hc | hc⟩
          · exact hload.1
          · exact absurd (hstate.symm.trans hc) (by decide)
          · exact absurd (hstate.symm.trans hc) (by decide)
        have ht := h.tracked r ((requests_sublist L).subset hrr)
        have ho : origin { r with state := .Translated } = r.origin := rfl
        exact h.sendLoad hr ho hl (.inl rfl) (ht.restated (by decide)) (h.apart r hrr hstate) hs
      · rw [if_neg hstate] at hs
        cases hs

theorem recvReqRetry (hs : L.recvReqRetry cfg accept = some L') : Inv E N L' := by
  rw [LSQ.recvReqRetry] at hs
  split at hs
  · obtain ⟨seqNum, -, hs⟩ := bind_eq_some_iff.1 hs
    have hrunning : Inv E N { L with port := L.port.running } := h.flags rfl rfl
    exact hrunning.retry hs
  · cases hs

end

/-- A response gives a load its data, and to a store nothing. -/
theorem retireResponse_origin (r : LSQRequest) (f : Fragment) (response : ℕ → Byte) :
    (r.retireResponse f response).origin = r.origin := by
  cases hl : r.isLoad <;> simp [origin, retireResponse, hl]

theorem retireResponse_state (r : LSQRequest) (f : Fragment) (response : ℕ → Byte) :
    (r.retireResponse f response).state = .Complete ∨
    (r.retireResponse f response).state = r.state := by
  rw [retireResponse]
  split
  · exact .inl rfl
  · exact .inr rfl

/-- `P` is the port once the packet `p` is answered. -/
structure Answered (L : LSQ) (P : Port) (p : InFlight) : Prop where
  mem : P.mem = L.port.mem
  parts : ∃ q₁ q₂, L.port.inFlight = q₁ ++ p :: q₂ ∧ P.inFlight = q₁ ++ q₂

namespace Answered

variable {p : InFlight} {f : Fragment}

theorem changedFor (hP : Answered L P p) (h : Inv E N L) (hseq : p.seqNum = n) :
    ChangedFor N n L.port P := by
  obtain ⟨q₁, q₂, hq, hq'⟩ := hP.parts
  refine ⟨hP.mem, fun m hm => ?_, fun q hmem => h.fresh q ?_⟩
  · simp [packetsOf, hq, hq', hseq, hm.symm]
  · rw [hq'] at hmem
    rw [hq]
    exact (Sublist.append_left (sublist_cons_self p q₂) q₁).subset hmem

/-- The packets of the request before and after. -/
theorem packets (hP : Answered L P p) (hseq : p.seqNum = n) : ∃ q₁ q₂,
    packetsOf n L.port.inFlight = q₁ ++ p :: q₂ ∧ packetsOf n P.inFlight = q₁ ++ q₂ := by
  obtain ⟨q₁, q₂, hq, hq'⟩ := hP.parts
  exact ⟨packetsOf n q₁, packetsOf n q₂, by simp [packetsOf, hq, hseq], by simp [packetsOf, hq']⟩

theorem tracked (hP : Answered L P p) (h : Inv E N L) (hr : r ∈ L.all) (hseq : p.seqNum = r.seqNum)
    (hstate : r.state ≠ .Complete) (hf : r.fragments[p.index]? = some f) :
    (r.retireResponse f p.data).Tracked (E r.seqNum) (packetsOf r.seqNum P.inFlight) := by
  obtain ⟨q₁, q₂, hq, hq'⟩ := hP.packets hseq
  have hold := h.tracked r hr
  rw [hq] at hold
  rw [hq']
  exact hold.retired (h.wellFormed hr) hstate hf

end Answered

variable {p : InFlight} {f : Fragment}

theorem retired_load (h : Inv E N L) (hP : Answered L P p) (hr : r ∈ L.all)
    (hseq : p.seqNum = r.seqNum) (hf : r.fragments[p.index]? = some f)
    (hstate : r.state = .RequestIssuing ∨ r.state = .RequestNeedsRetry) : Inv E N { L with
      requests := updateIn (r.retireResponse f p.data) L.requests
      transfers := updateIn (r.retireResponse f p.data) L.transfers
      port := P } := by
  have hne : r.state ≠ .Complete := by rcases hstate with hc | hc <;> rw [hc] <;> decide
  have ho := retireResponse_origin r f p.data
  have ht := hP.tracked h hr hseq hne hf
  have hchanged := hP.changedFor h hseq
  have hls : (r.retireResponse f p.data).LoadState := by
    rcases retireResponse_state r f p.data with hc | hc
    · exact .inr (.inr (.inr (.inr hc)))
    · rcases hstate with hc' | hc'
      · exact .inr (.inr (.inl (hc.trans hc')))
      · exact .inr (.inr (.inr (.inl (hc.trans hc'))))
  simp only [LSQ.all, mem_append] at hr
  rcases hr with hr | hr | hr
  · -- no store of the store buffer is in these states
    rcases (h.inSlots r hr).2 with hc | hc | hc <;> rcases hstate with hc' | hc' <;>
      exact absurd (hc.symm.trans hc') (by decide)
  · have hl : r.isLoad = true := by
      rcases h.inTransfers r hr with hc | ⟨_, _, hc⟩
      · exact hc.1
      · rcases hstate with hc' | hc' <;> exact absurd (hc.symm.trans hc') (by decide)
    obtain ⟨a, b, hab, hupdate⟩ := h.updateIn_of_mem (transfers_sublist L) hr (seqNum_of_origin ho)
    have hrequests : updateIn (r.retireResponse f p.data) L.requests = L.requests :=
      updateIn_of_ne fun u hu => h.seqNum_ne_of_append (r := r) (sublist_append_right _ _) hr hu
    rw [hrequests, hupdate]
    exact h.transfer_changed hab ho (.inl ⟨hl, hls⟩) hchanged ht
  · have hl : r.isLoad = true := by
      rcases h.inRequests r hr with hc | ⟨_, _, hc⟩
      · exact hc.1
      · rcases hstate with hc' | hc' <;> rcases hc with hc | hc <;>
          exact absurd (hc.symm.trans hc') (by decide)
    obtain ⟨a, b, hab, hupdate⟩ := h.updateIn_of_mem (requests_sublist L) hr (seqNum_of_origin ho)
    have htransfers : updateIn (r.retireResponse f p.data) L.transfers = L.transfers :=
      updateIn_of_ne fun u hu =>
        (h.seqNum_ne_of_append (u := r) (sublist_append_right _ _) hu hr).symm
    rw [htransfers, hupdate]
    refine h.request_changed hab ho (.inl ⟨hl, hls⟩) hchanged ht ?_
    intro hstate'
    rcases retireResponse_state r f p.data with hc | hc
    · exact absurd (hc.symm.trans hstate') (by decide)
    · exact h.apart r hr (hc.symm.trans hstate')

/-- A store of the store buffer. It leaves with its last response; `hfree` is then needed. -/
theorem retired_store (h : Inv E N L) (hP : Answered L P p) (hr : r ∈ L.slots)
    (hseq : p.seqNum = r.seqNum) (hf : r.fragments[p.index]? = some f) (hne : r.state ≠ .Complete)
    (hfree : r.numRetiredFragments + 1 = r.fragments.length → ∀ u ∈ L.slots, u.seqNum < r.seqNum →
      ∀ x v, r.write x = some v → u.write x = none) :
    Inv E N { L with
      slots := if (r.retireResponse f p.data).state = .Complete
        then L.slots.filter (·.seqNum ≠ r.seqNum)
        else updateIn (r.retireResponse f p.data) L.slots
      port := P } := by
  have ho := retireResponse_origin r f p.data
  have hrall := (slots_sublist L).subset hr
  have hchanged := hP.changedFor h hseq
  obtain ⟨a, b, hab, hupdate⟩ := h.updateIn_of_mem (slots_sublist L) hr (seqNum_of_origin ho)
  have hsorted := h.sorted_all.sublist (slots_sublist L)
  rw [hab, pairwise_append, pairwise_cons] at hsorted
  by_cases hdone : (r.retireResponse f p.data).state = .Complete
  · rw [if_pos hdone]
    have hlast : r.numRetiredFragments + 1 = r.fragments.length := by
      by_contra hmore
      exact hne ((if_neg hmore : (if _ then _ else r.state) = r.state).symm.trans hdone)
    have hrest : L.slots.filter (fun s => decide (s.seqNum ≠ r.seqNum)) = a ++ b := by
      rw [hab, filter_append, filter_cons_of_neg (by simp)]
      congr 1
      · exact filter_eq_self.2 fun u hu => decide_eq_true (hsorted.2.2 u hu r mem_cons_self).ne
      · exact filter_eq_self.2 fun u hu => decide_eq_true (hsorted.2.1.1 u hu).ne'
    rw [hrest]
    obtain ⟨q₁, q₂, hq, -⟩ := hP.packets hseq
    have hsent := (hq ▸ h.tracked r hrall).sentAll hlast
    refine h.slot_removed hab hsent hchanged ?_
    intro u hu
    exact hfree hlast u (hab ▸ mem_append_left _ hu) (hsorted.2.2 u hu r mem_cons_self)
  · rw [if_neg hdone, hupdate]
    have hsame := (retireResponse_state r f p.data).resolve_left hdone
    refine h.slot_changed hab ho ⟨(h.inSlots r hr).1, ?_⟩ hchanged rfl ?_
      (hP.tracked h hrall hseq hne hf)
    · rw [hsame]
      exact (h.inSlots r hr).2
    · intro u _ _ hquiet
      exact ⟨hquiet.1, hsame.trans hquiet.2⟩

theorem mem_slots (h : Inv E N L) (hr : r ∈ L.all)
    (hstate : r.state = .StoreBufferIssuing ∨ r.state = .StoreBufferNeedsRetry) : r ∈ L.slots := by
  simp only [LSQ.all, mem_append] at hr
  rcases hr with hr | hr | hr
  · exact hr
  · rcases h.inTransfers r hr with ⟨_, hc | hc | hc | hc | hc⟩ | ⟨_, _, hc⟩ <;>
      rcases hstate with hc' | hc' <;>
      exact absurd (hc.symm.trans hc') (by decide)
  · rcases h.inRequests r hr with ⟨_, hc | hc | hc | hc | hc⟩ | ⟨_, _, hc | hc⟩ <;>
      rcases hstate with hc' | hc' <;>
      exact absurd (hc.symm.trans hc') (by decide)

theorem recvTimingResp (h : Inv E N L) (hs : L.recvTimingResp n = some L')
    (hfree : ∀ p, L.port.inFlight[n]? = some p → ∀ r ∈ L.slots, r.seqNum = p.seqNum →
      r.numRetiredFragments + 1 = r.fragments.length → ∀ u ∈ L.slots, u.seqNum < r.seqNum →
      ∀ x v, r.write x = some v → u.write x = none) : Inv E N L' := by
  obtain ⟨p, hp, hs⟩ := bind_eq_some_iff.1 hs
  obtain ⟨r, hfind, hs⟩ := bind_eq_some_iff.1 hs
  obtain ⟨f, hf, hs⟩ := bind_eq_some_iff.1 hs
  have hr := mem_of_find?_eq_some hfind
  have hseq : r.seqNum = p.seqNum := by simpa using find?_some hfind
  have hP : Answered L (L.port.answered n) p := by
    obtain ⟨hn, rfl⟩ := List.getElem?_eq_some_iff.1 hp
    refine ⟨rfl, L.port.inFlight.take n, L.port.inFlight.drop (n + 1), ?_,
      eraseIdx_eq_take_drop_succ _ _⟩
    rw [← drop_eq_getElem_cons hn, take_append_drop]
  have hload : (r.state = .RequestIssuing ∨ r.state = .RequestNeedsRetry) → Inv E N _ :=
    h.retired_load hP hr hseq.symm hf
  have hstore : (r.state = .StoreBufferIssuing ∨ r.state = .StoreBufferNeedsRetry) → Inv E N _ :=
      fun hstate =>
    have hrs := h.mem_slots hr hstate
    have hne : r.state ≠ .Complete :=
      fun hc => by rcases hstate with hc' | hc' <;> cases hc.symm.trans hc'
    h.retired_store hP hrs hseq.symm hf hne (hfree p hp r hrs hseq)
  rw [LSQ.retired] at hs
  split at hs
  case h_1 hstate =>
    cases hs
    exact hload (.inl hstate)
  case h_2 hstate =>
    cases hs
    exact hload (.inr hstate)
  case h_3 hstate =>
    cases hs
    exact hstore (.inl hstate)
  case h_4 hstate =>
    cases hs
    exact hstore (.inr hstate)
  case h_5 => cases hs

end Inv

end EnocGem5.Minor
