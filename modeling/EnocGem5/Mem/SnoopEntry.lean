import EnocGem5.Lib.Run
import EnocGem5.Mem.SnoopFilter

/-!
# SnoopEntry — what the calls of the snoop filter do to an entry

A null entry is as good as none: `entry` reads a missing entry as one without requesters and
holders. In these terms every call writes the entry of one line, and the ports that a lookup returns
are those of the entry it finds, whether or not there is one in the table. A retried request leaves
the table as it was, and no call leaves a null entry behind.
-/

namespace EnocGem5.Mem.SnoopFilter

open Lib Option BitVec

def entry (F : SnoopFilter) (line : ℕ) : SnoopItem := (F.cachedLocations.lookup line).getD {}

/-- Everything that `setSlavePorts` and the constructor set stays. -/
structure SamePorts (F G : SnoopFilter) : Prop where
  slavePorts : G.slavePorts = F.slavePorts
  localSlavePortIds : G.localSlavePortIds = F.localSlavePortIds
  linesize : G.linesize = F.linesize

/-- The entry of `line` becomes `item`. -/
structure Writes (line : ℕ) (item : SnoopItem) (F G : SnoopFilter) : Prop where
  ports : SamePorts F G
  entry : ∀ l, G.entry l = if l = line then item else F.entry l

variable {sh : WordShift} {F G H : SnoopFilter} {mask : SnoopMask} {pkt : Packet}
  {dests ports : List SlavePort} {item : SnoopItem} {line addr : ℕ} {port p q : SlavePort}
  {isSecure : Bool}

theorem SamePorts.refl (F : SnoopFilter) : SamePorts F F := ⟨rfl, rfl, rfl⟩

theorem SamePorts.trans (h : SamePorts F G) (h' : SamePorts G H) : SamePorts F H :=
  ⟨h'.slavePorts.trans h.slavePorts, h'.localSlavePortIds.trans h.localSlavePortIds,
    h'.linesize.trans h.linesize⟩

theorem SamePorts.portToMask (h : SamePorts F G) (p : SlavePort) :
    G.portToMask sh p = F.portToMask sh p := by
  simp only [SnoopFilter.portToMask, h.localSlavePortIds]

theorem SamePorts.maskToPortList (h : SamePorts F G) (mask : SnoopMask) :
    G.maskToPortList sh mask = F.maskToPortList sh mask := by
  simp only [SnoopFilter.maskToPortList, h.slavePorts, h.portToMask]

theorem SamePorts.faithful (h : SamePorts F G) (hF : F.Faithful sh ports) :
    G.Faithful sh ports where
  oneHot := by
    simpa only [h.portToMask] using hF.oneHot
  disjoint := by
    simpa only [h.portToMask] using hF.disjoint
  nodup := by
    simpa only [h.maskToPortList] using hF.nodup
  mem_iff := by
    simpa only [h.maskToPortList, h.portToMask] using hF.mem_iff

theorem addSlavePorts_linesize {id : ℕ}
    (h : F.addSlavePorts id ports = some G) : G.linesize = F.linesize := by
  fun_induction F.addSlavePorts id ports with
  | case1 =>
    cases h
    rfl
  | case2 F id p ports _ _ ih => exact ih h
  | case3 => cases h
  | case4 F id _ ports _ ih => exact ih h

/-! ## Entries after a call -/

theorem eq_empty_of_null (h : item.null = true) : item = {} := by
  have hzero : item.requested = 0 ∧ item.holder = 0 := by
    simpa [SnoopItem.null, or_eq_zero_iff] using h
  cases item
  simp_all

theorem entry_of_lookup (h : F.cachedLocations.lookup line = some item) : F.entry line = item := by
  rw [entry, h, getD_some]

theorem entry_of_lookup_none (h : F.cachedLocations.lookup line = none) : F.entry line = {} := by
  rw [entry, h, getD_none]

theorem writes_self (h : SamePorts F G) (hentry : ∀ l, G.entry l = F.entry l) :
    Writes line (F.entry line) F G := by
  refine ⟨h, ?_⟩
  intro l
  split
  case isTrue hl => rw [hentry, hl]
  case isFalse => exact hentry l

theorem writes_put (F : SnoopFilter) (line : ℕ) (item : SnoopItem) :
    Writes line item F (F.put line item) := by
  refine ⟨⟨rfl, rfl, rfl⟩, ?_⟩
  intro l
  rw [entry, lookup_put]
  split <;> rfl

theorem samePorts_eraseIfNullEntry (F : SnoopFilter) (line : ℕ) (item : SnoopItem) :
    SamePorts F (F.eraseIfNullEntry line item) := by
  unfold eraseIfNullEntry
  split <;> exact ⟨rfl, rfl, rfl⟩

/-- Erasing a null entry is not seen. -/
theorem entry_eraseIfNullEntry (h : F.cachedLocations.lookup line = some item) (l : ℕ) :
    (F.eraseIfNullEntry line item).entry l = F.entry l := by
  rw [entry, lookup_eraseIfNullEntry]
  split
  case isTrue hnull =>
    rcases hnull with ⟨rfl, hnull⟩
    rw [entry_of_lookup h, eq_empty_of_null hnull]
    rfl
  case isFalse => rfl

theorem putOrErase_spec (F : SnoopFilter) (line : ℕ) (item : SnoopItem) :
    Writes line item F (F.putOrErase line item) ∧ Settles line F (F.putOrErase line item) := by
  have hput := writes_put F line item
  have hlookup : (F.put line item).cachedLocations.lookup line = some item := by
    rw [lookup_put, if_pos rfl]
  refine ⟨⟨hput.ports.trans (samePorts_eraseIfNullEntry _ line item), ?_⟩,
    settles_putOrErase line item⟩
  intro l
  rw [putOrErase, entry_eraseIfNullEntry hlookup]
  exact hput.entry l

theorem putLive_spec (h : F.putLive line item = some G) :
    Writes line item F G ∧ Settles line F G := by
  rcases ite_none_left_eq_some.1 h with ⟨hnull, h⟩
  cases h
  exact ⟨writes_put F line item, settles_put (by simpa using hnull)⟩

/-- A line without an entry is settled. -/
theorem settles_refl (h : F.cachedLocations.lookup line = none) : Settles line F F where
  others _ _ := rfl
  live _ hitem := nomatch h.symm.trans hitem
  request := rfl

/-- The entry that a request leaves: only a tracked request changes it. -/
def requested (F : SnoopFilter) (pkt : Packet) (port : SlavePort) (mask : SnoopMask) :
    Option SnoopItem :=
  if allocates pkt port then requestItem pkt mask (F.entry (F.lineAddr pkt))
  else some (F.entry (F.lineAddr pkt))

/-- A request marks its port among the requests, if at all; only an eviction takes a holder out. -/
structure Tracked (pkt : Packet) (port : SlavePort) (mask : SnoopMask) (old new : SnoopItem) :
    Prop where
  requested : new.requested = old.requested ∨ new.requested = old.requested ||| mask
  marks : (allocates pkt port && pkt.cmd.needsResponse && !pkt.cacheResponding) = true →
    new.requested = old.requested ||| mask
  holder : new.holder = old.holder ∨
    ((pkt.cmd.isEviction && !pkt.blockCached) = true ∧ new.holder = old.holder &&& ~~~mask)

theorem requestItem_tracked {old new : SnoopItem}
    (h : requestItem pkt mask old = some new) : Tracked pkt port mask old new := by
  unfold requestItem at h
  split at h
  case isTrue hneeds =>
    split at h
    case isTrue hresponding =>
      rcases ite_none_left_eq_some.1 h with ⟨-, h⟩
      cases h
      exact ⟨.inl rfl, by simp [hresponding], .inl rfl⟩
    case isFalse =>
      split at h
      case isTrue =>
        cases h
        exact ⟨.inr rfl, fun _ => rfl, .inl rfl⟩
      case isFalse => cases h
  case isFalse hneeds =>
    have hnever : (allocates pkt port && pkt.cmd.needsResponse && !pkt.cacheResponding) = true →
        new.requested = old.requested ||| mask := by
      simp [hneeds]
    rcases ite_none_right_eq_some.1 h with ⟨hevict, h⟩
    rcases ite_none_left_eq_some.1 h with ⟨-, h⟩
    split at h
    case isTrue =>
      cases h
      exact ⟨.inl rfl, hnever, .inl rfl⟩
    case isFalse hcached =>
      cases h
      exact ⟨.inl rfl, hnever, .inr ⟨by simp [hevict, hcached], rfl⟩⟩

theorem requested_tracked (h : F.requested pkt port mask = some item) :
    Tracked pkt port mask (F.entry (F.lineAddr pkt)) item := by
  unfold requested at h
  split at h
  case isTrue => exact requestItem_tracked h
  case isFalse halloc =>
    cases h
    exact ⟨.inl rfl, by simp [halloc], .inl rfl⟩

theorem lookupRequest_entry (h : F.lookupRequest sh pkt port = some (G, dests)) :
    dests = F.maskToPortList sh (((F.entry (F.lineAddr pkt)).holder |||
        (F.entry (F.lineAddr pkt)).requested) &&& ~~~F.portToMask sh port) ∧
      ∃ item, F.requested pkt port (F.portToMask sh port) = some item ∧
        Writes (F.lineAddr pkt) item F G := by
  simp only [lookupRequest] at h
  split at h
  case isTrue hmiss =>
    -- a miss that is not tracked: the entry reads as empty before and after
    rw [Bool.and_eq_true, isNone_iff_eq_none, Bool.not_eq_true'] at hmiss
    cases h
    rw [entry_of_lookup_none hmiss.1]
    refine ⟨?_, F.entry (F.lineAddr pkt), ?_, ?_⟩
    · simp [maskToPortList]
    · simp [requested, hmiss.2]
    · exact writes_self ⟨rfl, rfl, rfl⟩ fun _ => rfl
  case isFalse =>
    split at h
    case isTrue halloc =>
      rcases map_eq_some_iff.1 h with ⟨item, hitem, hG⟩
      cases hG
      refine ⟨rfl, item, ?_, ?_⟩
      · rw [requested, if_pos halloc]
        exact hitem
      · exact ⟨⟨rfl, rfl, rfl⟩, (writes_put F (F.lineAddr pkt) item).entry⟩
    case isFalse halloc =>
      cases h
      refine ⟨rfl, F.entry (F.lineAddr pkt), ?_, writes_self ⟨rfl, rfl, rfl⟩ fun _ => rfl⟩
      rw [requested, if_neg halloc]

/-- A request that is not retried is only checked. -/
theorem finishRequest_entry (h : F.finishRequest false addr isSecure = some G) :
    SamePorts F G ∧ ∀ l, G.entry l = F.entry l := by
  unfold finishRequest at h
  split at h
  case h_1 =>
    cases h
    exact ⟨SamePorts.refl F, fun _ => rfl⟩
  case h_2 line _ =>
    rcases ite_none_right_eq_some.1 h with ⟨-, h⟩
    rcases map_eq_some_iff.1 h with ⟨item, hitem, rfl⟩
    exact ⟨samePorts_eraseIfNullEntry F line item, entry_eraseIfNullEntry hitem⟩

/-- The entry that a snoop from below leaves. -/
def snooped (pkt : Packet) (item : SnoopItem) : SnoopItem :=
  if pkt.cmd.isInvalidate && item.requested = 0 then { item with holder := 0 } else item

theorem lookupSnoop_entry (h : F.lookupSnoop sh pkt = some (G, dests)) :
    dests = F.maskToPortList sh ((F.entry (F.lineAddr pkt)).holder |||
        (F.entry (F.lineAddr pkt)).requested) ∧
      Writes (F.lineAddr pkt) (snooped pkt (F.entry (F.lineAddr pkt))) F G ∧
          Settles (F.lineAddr pkt) F G := by
  rcases ite_none_right_eq_some.1 h with ⟨-, h⟩
  split at h
  case h_1 hmiss =>
    rcases ite_none_left_eq_some.1 h with ⟨-, h⟩
    cases h
    have hempty := entry_of_lookup_none hmiss
    have hsame : snooped pkt (F.entry (F.lineAddr pkt)) = F.entry (F.lineAddr pkt) := by
      rw [hempty]
      unfold snooped
      split <;> rfl
    refine ⟨?_, ?_, settles_refl hmiss⟩
    · rw [hempty]
      simp [maskToPortList]
    · rw [hsame]
      exact writes_self (SamePorts.refl F) fun _ => rfl
  case h_2 item hitem =>
    rcases ite_none_right_eq_some.1 h with ⟨-, h⟩
    cases h
    rw [entry_of_lookup hitem]
    exact ⟨rfl, putOrErase_spec _ _ _⟩

/-- A response without sharers takes the line from all holders. -/
def dropped (pkt : Packet) (item : SnoopItem) : SnoopItem :=
  if pkt.hasSharers then item else { item with holder := 0 }

theorem updateSnoopForward_entry (h : F.updateSnoopForward pkt = some G) :
    Writes (F.lineAddr pkt) (dropped pkt (F.entry (F.lineAddr pkt))) F G ∧
    Settles (F.lineAddr pkt) F G := by
  simp only [updateSnoopForward] at h
  rcases ite_none_right_eq_some.1 h with ⟨-, h⟩
  split at h
  case h_1 hmiss =>
    cases h
    have hsame : dropped pkt (F.entry (F.lineAddr pkt)) = F.entry (F.lineAddr pkt) := by
      rw [entry_of_lookup_none hmiss]
      unfold dropped
      split <;> rfl
    rw [hsame]
    exact ⟨writes_self (SamePorts.refl F) fun _ => rfl, settles_refl hmiss⟩
  case h_2 item hitem =>
    cases h
    rw [entry_of_lookup hitem]
    exact putOrErase_spec _ _ _

theorem updateSnoopResponse_entry {rspPort reqPort : SlavePort}
    (h : F.updateSnoopResponse sh pkt rspPort reqPort = some G) :
    ((pkt.req.isUncacheable = true ∨ reqPort.isSnooping = false) ∧ G = F) ∨
      ((F.entry (F.lineAddr pkt)).requested &&& F.portToMask sh reqPort ≠ 0 ∧
        Writes (F.lineAddr pkt) ((dropped pkt (F.entry (F.lineAddr pkt))).answer
          (F.portToMask sh reqPort)) F G ∧ Settles (F.lineAddr pkt) F G) := by
  rcases ite_none_right_eq_some.1 h with ⟨-, h⟩
  split at h
  case isTrue hskip =>
    cases h
    exact .inl ⟨by simpa using hskip, rfl⟩
  case isFalse =>
    rcases ite_none_left_eq_some.1 h with ⟨-, h⟩
    rcases ite_none_left_eq_some.1 h with ⟨hrequested, h⟩
    rcases ite_none_left_eq_some.1 h with ⟨-, h⟩
    exact .inr ⟨hrequested, putLive_spec h⟩

theorem updateResponse_entry (h : F.updateResponse sh pkt port = some G) :
    ((pkt.req.isUncacheable = true ∨ port.isSnooping = false ∨ F.entry (F.lineAddr pkt) = {}) ∧
        G = F) ∨
      ((F.entry (F.lineAddr pkt)).requested &&& F.portToMask sh port ≠ 0 ∧
        Writes (F.lineAddr pkt) ((F.entry (F.lineAddr pkt)).answer (F.portToMask sh port)) F G ∧
        Settles (F.lineAddr pkt) F G) := by
  simp only [updateResponse] at h
  rcases ite_none_right_eq_some.1 h with ⟨-, h⟩
  split at h
  case isTrue hskip =>
    cases h
    have hskip : pkt.req.isUncacheable = true ∨ port.isSnooping = false := by simpa using hskip
    exact .inl ⟨hskip.imp_right Or.inl, rfl⟩
  case isFalse =>
    split at h
    case h_1 hmiss =>
      cases h
      exact .inl ⟨.inr (.inr (entry_of_lookup_none hmiss)), rfl⟩
    case h_2 item hitem =>
      rw [entry_of_lookup hitem]
      rcases ite_none_left_eq_some.1 h with ⟨hrequested, h⟩
      exact .inr ⟨hrequested, putLive_spec h⟩

/-! ## Null entries and retries -/

section Retries

/-- Every entry, except that of line `spared`, has a requester or a holder. -/
def Live (spared : Option ℕ) (F : SnoopFilter) : Prop :=
  ∀ line item, F.cachedLocations.lookup line = some item → spared ≠ some line → item.null = false

abbrev NoNull (F : SnoopFilter) : Prop := F.Live none

/-- An entry has to be spared no longer once it is settled. -/
theorem Settles.keepsLive {spared spared' : Option ℕ} (hFG : Settles line F G) (hF : F.Live spared)
    (hspared : ∀ l ≠ line, spared' ≠ some l → spared ≠ some l) : G.Live spared' := by
  intro l item hitem hl
  by_cases hline : l = line
  · subst hline
    exact hFG.live item hitem
  · rw [hFG.others l hline] at hitem
    exact hF l item hitem (hspared l hline hl)

inductive Call
  | lookupRequest (pkt : Packet) (port : SlavePort)
  | finishRequest (willRetry : Bool) (addr : ℕ) (isSecure : Bool)
  | lookupSnoop (pkt : Packet)
  | updateSnoopResponse (pkt : Packet) (rspPort reqPort : SlavePort)
  | updateSnoopForward (pkt : Packet)
  | updateResponse (pkt : Packet) (port : SlavePort)

/-- The filter, and whether a `lookupRequest` waits for its `finishRequest`. -/
structure Session where
  filter : SnoopFilter
  pending : Bool := false

variable (sh : WordShift)

/-- A call of a crossbar that pairs `lookupRequest` with `finishRequest`. While the request is sent
on a cache below may snoop, so other calls can come between the two. -/
def Session.call (s : Session) : Call → Option Session
  | .lookupRequest pkt port =>
    if s.pending then none
    else (s.filter.lookupRequest sh pkt port).map fun r => ⟨r.1, true⟩
  | .finishRequest willRetry addr isSecure =>
    if s.pending then (s.filter.finishRequest willRetry addr isSecure).map fun F => ⟨F, false⟩
    else none
  | .lookupSnoop pkt => (s.filter.lookupSnoop sh pkt).map fun r => ⟨r.1, s.pending⟩
  | .updateSnoopResponse pkt rspPort reqPort =>
    (s.filter.updateSnoopResponse sh pkt rspPort reqPort).map fun F => ⟨F, s.pending⟩
  | .updateSnoopForward pkt => (s.filter.updateSnoopForward pkt).map fun F => ⟨F, s.pending⟩
  | .updateResponse pkt port => (s.filter.updateResponse sh pkt port).map fun F => ⟨F, s.pending⟩

/-- No entry is null, except possibly that of the request being sent on. -/
def Session.NoNull (s : Session) : Prop :=
  s.filter.Live (if s.pending then s.filter.reqLookupResult else none)

/-- A call that settles one line does not end a request. -/
theorem Session.noNull_of_settles {s : Session} (hs : s.NoNull)
    (hG : Settles line s.filter G) : Session.NoNull ⟨G, s.pending⟩ := by
  unfold Session.NoNull
  rw [hG.request]
  exact hG.keepsLive hs fun _ _ => id

theorem Session.noNull_call {sh : WordShift} {s s' : Session} {c : Call} (hs : s.NoNull)
    (h : s.call sh c = some s') : s'.NoNull := by
  cases c with
  | lookupRequest pkt port =>
    simp only [Session.call] at h
    rcases ite_none_left_eq_some.1 h with ⟨hpending, h⟩
    rcases map_eq_some_iff.1 h with ⟨⟨G, dests⟩, hG, rfl⟩
    have hF : s.filter.NoNull := by simpa [Session.NoNull, hpending] using hs
    rcases (lookupRequest_cases hG).2 with ⟨_, hsame⟩ | ⟨hreq, _, _, hothers⟩
    · intro line item hitem _
      exact hF line item (hsame ▸ hitem) (by simp)
    · -- only the entry of the request may have become null
      intro line item hitem hline
      have hne : line ≠ s.filter.lineAddr pkt := by
        rintro rfl
        exact hline hreq
      exact hF line item (hothers line hne ▸ hitem) (by simp)
  | finishRequest willRetry addr isSecure =>
    simp only [Session.call] at h
    rcases ite_none_right_eq_some.1 h with ⟨hpending, h⟩
    rcases map_eq_some_iff.1 h with ⟨G, hG, rfl⟩
    have hF : s.filter.Live s.filter.reqLookupResult := by
      simpa [Session.NoNull, hpending] using hs
    rcases finishRequest_cases hG with ⟨hnone, rfl⟩ | ⟨line, hline, hsettles⟩
    · rw [hnone] at hF
      exact hF
    · refine hsettles.keepsLive hF ?_
      intro l hl _ hspared
      exact hl (some.inj (hline.symm.trans hspared)).symm
  | lookupSnoop pkt =>
    rcases map_eq_some_iff.1 h with ⟨⟨G, dests⟩, hG, rfl⟩
    exact Session.noNull_of_settles hs (lookupSnoop_entry hG).2.2
  | updateSnoopResponse pkt rspPort reqPort =>
    rcases map_eq_some_iff.1 h with ⟨G, hG, rfl⟩
    rcases updateSnoopResponse_entry hG with ⟨-, rfl⟩ | ⟨-, -, hsettles⟩
    · exact hs
    · exact Session.noNull_of_settles hs hsettles
  | updateSnoopForward pkt =>
    rcases map_eq_some_iff.1 h with ⟨G, hG, rfl⟩
    exact Session.noNull_of_settles hs (updateSnoopForward_entry hG).2
  | updateResponse pkt port =>
    rcases map_eq_some_iff.1 h with ⟨G, hG, rfl⟩
    rcases updateResponse_entry hG with ⟨-, rfl⟩ | ⟨-, -, hsettles⟩
    · exact hs
    · exact Session.noNull_of_settles hs hsettles

/-- The retry of a request takes back what its lookup did to the entries. -/
theorem finishRequest_rollback {sh : WordShift} (hF : F.NoNull)
    (hG : F.lookupRequest sh pkt port = some (G, dests))
    (hline : lineKey (addr - addr % F.linesize) isSecure = F.lineAddr pkt) :
    ∃ H, G.finishRequest true addr isSecure = some H ∧
      H.cachedLocations = F.cachedLocations := by
  rcases lookupRequest_cases hG with ⟨hsize, ⟨hnone, hsame⟩ |
    ⟨hreq, hretry, ⟨item, hitem⟩, hothers⟩⟩
  · refine ⟨G, ?_, hsame⟩
    unfold finishRequest
    rw [hnone]
  · refine ⟨G.putOrErase (F.lineAddr pkt) G.retryItem, ?_, ?_⟩
    · unfold finishRequest
      simp [hreq, hsize, hline, hitem, map_some]
    · apply Finmap.ext_lookup
      intro l
      by_cases hl : l = F.lineAddr pkt
      · subst hl
        rw [putOrErase, lookup_eraseIfNullEntry, lookup_put, if_pos rfl, hretry]
        cases hfound : F.cachedLocations.lookup (F.lineAddr pkt) with
        | none =>
          -- the entry was created by the lookup; its saved value is null
          exact if_pos ⟨rfl, by decide⟩
        | some old =>
          have hold : old.null = false := hF _ old hfound (by simp)
          exact if_neg (by simp [hold])
      · rw [(settles_putOrErase _ _).others l hl, hothers l hl]

/-- From a filter without null entries, a retried request leaves the entries as they were, and no
sequence of calls leaves a null entry behind. -/
theorem retry_restores_and_noNull (F : SnoopFilter) (hF : F.NoNull) :
    (∀ pkt port G dests addr isSecure, F.lookupRequest sh pkt port = some (G, dests) →
        lineKey (addr - addr % F.linesize) isSecure = F.lineAddr pkt →
        ∃ H, G.finishRequest true addr isSecure = some H ∧
          H.cachedLocations = F.cachedLocations) ∧
      ∀ calls, Always (Session.call sh) Session.NoNull ⟨F, false⟩ calls := by
  constructor
  · intro pkt port G dests addr isSecure hG hline
    exact finishRequest_rollback hF hG hline
  · intro calls
    exact Always.of_invariant (fun s hs => hs) (fun _ _ _ hs h => Session.noNull_call hs h) hF

theorem noNull_of_empty (h : F.cachedLocations = ∅) : F.NoNull := by
  intro line item hitem _
  rw [h, Finmap.lookup_empty] at hitem
  cases hitem

def evictLine : Packet := { cmd := .CleanEvict, req := { masterId := 0 }, addr := 64 }

/-- The only holder of a line evicts it. The lookup leaves the entry null, the retry brings the
holder back, and the eviction is tried again. -/
theorem evictRetry_restores :
    ∃ F G dests H,
      ((create 64 4096).setSlavePorts [⟨0, true⟩, ⟨1, true⟩]).map (put · 64 { holder := 1 }) =
      some F ∧ F.NoNull ∧ F.lookupRequest .wrapping evictLine ⟨0, true⟩ = some (G, dests) ∧
      G.cachedLocations.lookup 64 = some {} ∧ G.finishRequest true 64 false = some H ∧
      H.cachedLocations = F.cachedLocations ∧
      Always (Session.call .wrapping) Session.NoNull ⟨F, false⟩
        [.lookupRequest evictLine ⟨0, true⟩, .finishRequest true 64 false,
          .lookupRequest evictLine ⟨0, true⟩, .finishRequest false 64 false] := by
  rcases hports : (create 64 4096).setSlavePorts [⟨0, true⟩, ⟨1, true⟩] with _ | E
  · cases hports
  have hE : E.cachedLocations = ∅ := by
    cases hports
    rfl
  have hF : (E.put 64 { holder := 1 }).NoNull :=
    (settles_put (by decide)).keepsLive (noNull_of_empty hE) fun _ _ => id
  have hlookup : ∃ G dests,
      (E.put 64 { holder := 1 }).lookupRequest .wrapping evictLine ⟨0, true⟩ = some (G, dests) ∧
        G.cachedLocations.lookup 64 = some {} := by
    cases hports
    exact ⟨_, _, rfl, by decide⟩
  rcases hlookup with ⟨G, dests, hG, hnull⟩
  rcases retry_restores_and_noNull .wrapping _ hF with ⟨hrollback, halways⟩
  have hline : lineKey (64 - 64 % E.linesize) false =
      (E.put 64 { holder := 1 }).lineAddr evictLine := by
    cases hports
    rfl
  rcases hrollback _ _ G dests 64 false hG hline with ⟨H, hH, hsame⟩
  exact ⟨_, G, dests, H, rfl, hF, hG, hnull, hH, hsame, halways _⟩

end Retries

/-! ## Masks of faithful ports -/

/-- The port is one of those in the mask. -/
def Marked (sh : WordShift) (F : SnoopFilter) (mask : SnoopMask) (p : SlavePort) : Prop :=
  mask &&& F.portToMask sh p ≠ 0

theorem marked_or {a b : SnoopMask} :
    F.Marked sh (a ||| b) p ↔ F.Marked sh a p ∨ F.Marked sh b p := by
  have hdistrib : (a ||| b) &&& F.portToMask sh p =
      (a &&& F.portToMask sh p) ||| (b &&& F.portToMask sh p) := by
    apply eq_of_getLsbD_eq
    intro i _
    simp [Bool.and_or_distrib_right]
  rw [Marked, hdistrib]
  exact (not_congr or_eq_zero_iff).trans not_and_or

theorem SamePorts.marked (h : SamePorts F G) : G.Marked sh mask p ↔ F.Marked sh mask p := by
  rw [Marked, Marked, h.portToMask]

theorem Marked.isSnooping (h : F.Marked sh mask p) : p.isSnooping = true := by
  by_contra hnot
  exact h (by simp [portToMask, hnot])

theorem not_marked_zero : ¬ F.Marked sh 0 p := by
  simp [Marked]

variable (hF : F.Faithful sh ports)
include hF

theorem Faithful.marked_iff (hp : p ∈ ports) (hsnoop : p.isSnooping = true) :
    ∃ i < 64, F.portToMask sh p = 1#64 <<< i ∧
    ∀ mask, F.Marked sh mask p ↔ mask.getLsbD i = true := by
  rcases hF.oneHot p hp hsnoop with ⟨i, hi, hmask⟩
  refine ⟨i, hi, hmask, ?_⟩
  intro mask
  rw [Marked, hmask, and_bit]
  cases mask.getLsbD i with
  | true => simpa using bit_ne_zero hi
  | false => simp

theorem Faithful.marked_self (hp : p ∈ ports)
    (hsnoop : p.isSnooping = true) : F.Marked sh (F.portToMask sh p) p := by
  rcases hF.marked_iff hp hsnoop with ⟨i, hi, hmask, hiff⟩
  rw [hiff, hmask, getLsbD_bit hi]
  exact decide_eq_true rfl

/-- Taking another port out of a mask leaves the mark. -/
theorem Faithful.marked_and_not (hp : p ∈ ports) (hq : q ∈ ports)
    (hsnoop : p.isSnooping = true) (hne : p ≠ q) :
    F.Marked sh (mask &&& ~~~F.portToMask sh q) p ↔ F.Marked sh mask p := by
  rcases hF.marked_iff hp hsnoop with ⟨i, hi, _, hiff⟩
  have hother : (F.portToMask sh q).getLsbD i = false := by
    cases hqsnoop : q.isSnooping with
    | false => simp [portToMask, hqsnoop]
    | true =>
      have hdisjoint := hF.disjoint q hq p hp hqsnoop hsnoop (Ne.symm hne)
      have hnot : ¬ F.Marked sh (F.portToMask sh q) p := fun hmarked => hmarked hdisjoint
      rw [hiff] at hnot
      simpa using hnot
  rw [hiff, hiff, getLsbD_and, getLsbD_not, hother]
  simp [hi]

theorem Faithful.mem_of_marked (hp : p ∈ ports)
    (hsnoop : p.isSnooping = true) (h : F.Marked sh mask p) : p ∈ F.maskToPortList sh mask := by
  rcases hF.oneHot p hp hsnoop with ⟨i, hi, hmask⟩
  rw [hF.mem_iff]
  refine ⟨hp, hsnoop, ?_⟩
  rw [hmask]
  rw [Marked, hmask] at h
  exact (bit_and_ne_zero_iff hi mask).1 h

end EnocGem5.Mem.SnoopFilter
