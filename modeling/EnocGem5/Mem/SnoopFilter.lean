import EnocGem5.Mem.Packet

/-!
# SnoopFilter — where lines are cached above a crossbar

For every line the filter keeps two masks of slave ports: those with a request in flight and those
that hold the line. `lookupRequest` and `finishRequest` bracket a request from above, `lookupSnoop`
handles a snoop from below, and the three `update` functions see the responses.

A call is `none` where the source panics, fails an assertion or follows a dangling iterator.
-/

namespace EnocGem5.Mem

open List Option

/-! ## Masks -/

/-- `SnoopMask`, a `uint64_t`. -/
abbrev SnoopMask := BitVec 64

/-- What the machine computes for `((SnoopMask)1) << id`. The language fixes the result below the
word width only; `none` stands for a shift by `InvalidPortID`. -/
structure WordShift where
  one : Option ℕ → SnoopMask
  one_of_lt : ∀ id < 64, one (some id) = 1#64 <<< id

/-- A machine that takes the shift count modulo the word width, as `shl` does. -/
def WordShift.wrapping : WordShift where
  one
    | some id => 1#64 <<< (id % 64)
    | none => 1#64 <<< 63
  one_of_lt := by
    intro id hid
    show 1#64 <<< (id % 64) = 1#64 <<< id
    rw [Nat.mod_eq_of_lt hid]

/-- The part of `SlavePort` that the filter reads. `id` is `getId()` as an index: a negative
`PortID` becomes one that is out of range. -/
structure SlavePort where
  id : ℕ
  isSnooping : Bool
  deriving DecidableEq, Repr

structure SnoopItem where
  requested : SnoopMask := 0
  holder : SnoopMask := 0
  deriving DecidableEq, Repr

def SnoopItem.null (item : SnoopItem) : Bool := item.requested ||| item.holder = 0

/-- The request of the ports in `mask` is answered: they hold the line from now on. -/
def SnoopItem.answer (item : SnoopItem) (mask : SnoopMask) : SnoopItem :=
  { holder := item.holder ||| mask, requested := item.requested &&& ~~~mask }

/-! ## State -/

/-- `SnoopFilter`. The iterator `reqLookupResult` is the address it denotes, or `none` for
`end()`. -/
structure SnoopFilter where
  cachedLocations : Finmap (fun _ : ℕ => SnoopItem) := ∅
  reqLookupResult : Option ℕ := none
  retryItem : SnoopItem := {}
  slavePorts : List SlavePort := []
  localSlavePortIds : List (Option ℕ) := []
  linesize : ℕ
  maxEntryCount : ℕ

namespace SnoopFilter

/-- The constructor, from the system's line size and the `max_capacity` parameter. -/
def create (cacheLineSize maxCapacity : ℕ) : SnoopFilter :=
  { linesize := cacheLineSize, maxEntryCount := maxCapacity / cacheLineSize }

/-- The loop of `setSlavePorts`, from local id `id` on; `none` when it writes out of bounds. -/
def addSlavePorts (F : SnoopFilter) (id : ℕ) : List SlavePort → Option SnoopFilter
  | [] => some F
  | p :: ports =>
    -- no need to track this port if it is not snooping
    if p.isSnooping then
      if p.id < F.localSlavePortIds.length then
        addSlavePorts { F with
          slavePorts := F.slavePorts ++ [p]
          localSlavePortIds := F.localSlavePortIds.set p.id (some id) } (id + 1) ports
      else none
    else addSlavePorts F id ports

def setSlavePorts (F : SnoopFilter) (ports : List SlavePort) : Option SnoopFilter :=
  -- `resize` keeps the ids that are there and fills up with `InvalidPortID`
  let ids := F.localSlavePortIds.take ports.length ++
    List.replicate (ports.length - F.localSlavePortIds.length) none
  addSlavePorts { F with localSlavePortIds := ids } 0 ports

variable (sh : WordShift) (F : SnoopFilter)

def portToMask (port : SlavePort) : SnoopMask :=
  -- if this is not a snooping port, return a zero mask
  if port.isSnooping then sh.one (F.localSlavePortIds[port.id]?.join) else 0

def maskToPortList (portMask : SnoopMask) : List SlavePort :=
  F.slavePorts.filter fun p => portMask &&& F.portToMask sh p ≠ 0

/-! ## Entries -/

def lineSecure : ℕ := 1

/-- The key of a line: the block address, with the security space in its lowest bit. -/
def lineKey (blockAddr : ℕ) (isSecure : Bool) : ℕ :=
  if isSecure then blockAddr ||| lineSecure else blockAddr

variable (pkt : Packet)

def lineAddr : ℕ :=
  lineKey (pkt.getBlockAddr F.linesize) pkt.isSecure

def put (line : ℕ) (item : SnoopItem) : SnoopFilter :=
  { F with cachedLocations := F.cachedLocations.insert line item }

/-- `eraseIfNullEntry`, for the entry of `line`. -/
def eraseIfNullEntry (line : ℕ) (item : SnoopItem) : SnoopFilter :=
  if item.null then { F with cachedLocations := F.cachedLocations.erase line } else F

/-- The entry of a line is written and removed again if it is null. -/
def putOrErase (line : ℕ) (item : SnoopItem) : SnoopFilter :=
  (F.put line item).eraseIfNullEntry line item

/-- The entry of a line is written under the assertion that it is not null. -/
def putLive (line : ℕ) (item : SnoopItem) : Option SnoopFilter :=
  if item.null then none else some (F.put line item)

/-! ## Requests from above -/

variable (port : SlavePort)

/-- Whether a request makes the filter track its line. -/
def allocates : Bool :=
  !pkt.req.isUncacheable && port.isSnooping && pkt.cmd.fromCache

/-- The entry after a request that is tracked. -/
def requestItem (reqPort : SnoopMask) (item : SnoopItem) : Option SnoopItem :=
  if pkt.cmd.needsResponse then
    if pkt.cacheResponding then
      -- the response will not be seen by this filter, but the requester has to be a holder
      if item.holder &&& reqPort = 0 then none else some item
    else if item.requested &&& reqPort = 0 then
      some { item with requested := item.requested ||| reqPort }
    else none
  else if pkt.cmd.isEviction then
    if item.holder &&& reqPort = 0 then none
    else if pkt.blockCached then some item
    else some { item with holder := item.holder &&& ~~~reqPort }
  else none

def lookupRequest : Option (SnoopFilter × List SlavePort) :=
  let line := F.lineAddr pkt
  let reqPort := F.portToMask sh port
  let found := F.cachedLocations.lookup line
  if found.isNone && !allocates pkt port then
    some ({ F with reqLookupResult := none }, [])
  else
    let item := found.getD {}
    let dests := F.maskToPortList sh ((item.holder ||| item.requested) &&& ~~~reqPort)
    let F := { F with reqLookupResult := some line, retryItem := item }
    if allocates pkt port then
      (requestItem pkt reqPort item).map fun item => (F.put line item, dests)
    else some (F, dests)

def finishRequest (willRetry : Bool) (addr : ℕ) (isSecure : Bool) : Option SnoopFilter :=
  match F.reqLookupResult with
  | none => some F
  | some line =>
    if line = lineKey (addr - addr % F.linesize) isSecure then
      -- without an entry the iterator dangles
      (F.cachedLocations.lookup line).map fun item =>
        -- undo the changes of `lookupRequest` if the request will come again
        if willRetry then F.putOrErase line F.retryItem else F.eraseIfNullEntry line item
    else none

/-! ## Snoops from below and responses -/

def lookupSnoop : Option (SnoopFilter × List SlavePort) :=
  let line := F.lineAddr pkt
  if pkt.cmd.isRequest then
    match F.cachedLocations.lookup line with
    | none => if F.maxEntryCount ≤ F.cachedLocations.keys.card then none else some (F, [])
    | some item =>
      if pkt.cmd.isWriteback || pkt.req.isUncacheable ||
          (pkt.cmd.isInvalidate == pkt.cmd.needsWritable) then
        let dests := F.maskToPortList sh (item.holder ||| item.requested)
        -- early clear of the holder, if no other request is currently going on
        let item := if pkt.cmd.isInvalidate && item.requested = 0 then
          { item with holder := 0 } else item
        some (F.putOrErase line item, dests)
      else none
  else none

def updateSnoopResponse (rspPort reqPort : SlavePort) : Option SnoopFilter :=
  if pkt.cmd.isResponse && pkt.cacheResponding then
    if pkt.req.isUncacheable || !reqPort.isSnooping then some F
    else
      let line := F.lineAddr pkt
      let rspMask := F.portToMask sh rspPort
      let reqMask := F.portToMask sh reqPort
      let item := (F.cachedLocations.lookup line).getD {}
      if item.holder &&& rspMask = 0 then none
      else if item.requested &&& reqMask = 0 then none
      else if pkt.cmd.isWriteback then none
      else
        -- without sharers the line is passed on in modified state and there are no other copies
        let item := if pkt.hasSharers then item else { item with holder := 0 }
        F.putLive line (item.answer reqMask)
  else none

def updateSnoopForward : Option SnoopFilter :=
  if pkt.cmd.isResponse && pkt.cacheResponding then
    let line := F.lineAddr pkt
    match F.cachedLocations.lookup line with
    | none => some F
    | some item =>
      some (F.putOrErase line (if pkt.hasSharers then item else { item with holder := 0 }))
  else none

def updateResponse : Option SnoopFilter :=
  if pkt.cmd.isResponse then
    if pkt.req.isUncacheable || !port.isSnooping then some F
    else
      let line := F.lineAddr pkt
      match F.cachedLocations.lookup line with
      | none => some F
      | some item =>
        let mask := F.portToMask sh port
        if item.requested &&& mask = 0 then none
        else F.putLive line (item.answer mask)
  else none

/-! ## What a call writes -/

variable {sh F pkt port} {line i id j : ℕ} {dests ports : List SlavePort} {p : SlavePort}
  {G : SnoopFilter}

theorem lookup_put (F : SnoopFilter) (line l : ℕ) (item : SnoopItem) :
    (F.put line item).cachedLocations.lookup l =
      if l = line then some item else F.cachedLocations.lookup l := by
  split
  case isTrue h =>
    subst h
    exact Finmap.lookup_insert _
  case isFalse h => exact Finmap.lookup_insert_of_ne _ h

theorem lookup_eraseIfNullEntry (F : SnoopFilter) (line l : ℕ) (item : SnoopItem) :
    (F.eraseIfNullEntry line item).cachedLocations.lookup l =
      if l = line ∧ item.null = true then none else F.cachedLocations.lookup l := by
  unfold eraseIfNullEntry
  cases hnull : item.null with
  | false => simp
  | true =>
    by_cases h : l = line
    · subst h
      simp [Finmap.lookup_erase]
    · simp [h, Finmap.lookup_erase_ne h]

@[simp] theorem eraseIfNullEntry_reqLookupResult (F : SnoopFilter) (line : ℕ) (item : SnoopItem) :
    (F.eraseIfNullEntry line item).reqLookupResult = F.reqLookupResult := by
  unfold eraseIfNullEntry
  split <;> rfl

/-- At most the entry of `line` changes, and it is not left null. -/
structure Settles (line : ℕ) (F G : SnoopFilter) : Prop where
  others : ∀ l, l ≠ line → G.cachedLocations.lookup l = F.cachedLocations.lookup l
  live : ∀ item, G.cachedLocations.lookup line = some item → item.null = false
  request : G.reqLookupResult = F.reqLookupResult

variable {item : SnoopItem}

theorem settles_put (h : item.null = false) : Settles line F (F.put line item) where
  others := by
    intro l hl
    rw [lookup_put, if_neg hl]
  live := by
    intro found hfound
    rw [lookup_put, if_pos rfl] at hfound
    exact Option.some.inj hfound ▸ h
  request := rfl

theorem settles_eraseIfNullEntry (h : F.cachedLocations.lookup line = some item) :
    Settles line F (F.eraseIfNullEntry line item) where
  others := by
    intro l hl
    rw [lookup_eraseIfNullEntry, if_neg (fun hboth => hl hboth.1)]
  live := by
    intro found hfound
    rw [lookup_eraseIfNullEntry] at hfound
    cases hnull : item.null with
    | true => simp [hnull] at hfound
    | false =>
      rw [if_neg (by simp [hnull]), h] at hfound
      exact Option.some.inj hfound ▸ hnull
  request := eraseIfNullEntry_reqLookupResult F line item

theorem settles_putOrErase (line : ℕ) (item : SnoopItem) :
    Settles line F (F.putOrErase line item) := by
  have hput : (F.put line item).cachedLocations.lookup line = some item := by
    rw [lookup_put, if_pos rfl]
  have herase := settles_eraseIfNullEntry hput
  refine { herase with others := ?_ }
  intro l hl
  calc (F.putOrErase line item).cachedLocations.lookup l
      = (F.put line item).cachedLocations.lookup l := herase.others l hl
    _ = F.cachedLocations.lookup l := by rw [lookup_put, if_neg hl]

/-- A lookup either finds nothing to track, or leaves an entry for the line, the iterator on it and
its old value in `retryItem`. -/
theorem lookupRequest_cases (h : F.lookupRequest sh pkt port = some (G, dests)) :
    G.linesize = F.linesize ∧
      ((G.reqLookupResult = none ∧ G.cachedLocations = F.cachedLocations) ∨
        (G.reqLookupResult = some (F.lineAddr pkt) ∧
          G.retryItem = (F.cachedLocations.lookup (F.lineAddr pkt)).getD {} ∧
          (∃ item, G.cachedLocations.lookup (F.lineAddr pkt) = some item) ∧
          ∀ l, l ≠ F.lineAddr pkt →
            G.cachedLocations.lookup l = F.cachedLocations.lookup l)) := by
  simp only [lookupRequest] at h
  split at h
  case isTrue =>
    cases h
    exact ⟨rfl, .inl ⟨rfl, rfl⟩⟩
  case isFalse hmiss =>
    split at h
    case isTrue =>
      rcases map_eq_some_iff.1 h with ⟨item, _, hG⟩
      cases hG
      refine ⟨rfl, .inr ⟨rfl, rfl, ⟨item, ?_⟩, ?_⟩⟩
      · rw [lookup_put, if_pos rfl]
      · intro l hl
        rw [lookup_put, if_neg hl]
    case isFalse halloc =>
      cases h
      -- nothing is allocated, so the line was found
      have hsome : (F.cachedLocations.lookup (F.lineAddr pkt)).isSome = true := by
        cases hfound : F.cachedLocations.lookup (F.lineAddr pkt) with
        | none => simp [hfound, halloc] at hmiss
        | some item => rfl
      exact ⟨rfl, .inr ⟨rfl, rfl, isSome_iff_exists.1 hsome, fun _ _ => rfl⟩⟩

theorem finishRequest_cases {willRetry : Bool} {addr : ℕ} {isSecure : Bool}
    (h : F.finishRequest willRetry addr isSecure = some G) :
    (F.reqLookupResult = none ∧ G = F) ∨
      ∃ line, F.reqLookupResult = some line ∧ Settles line F G := by
  unfold finishRequest at h
  split at h
  case h_1 hnone =>
    cases h
    exact .inl ⟨hnone, rfl⟩
  case h_2 line hline =>
    rcases ite_none_right_eq_some.1 h with ⟨-, h⟩
    rcases map_eq_some_iff.1 h with ⟨item, hitem, hG⟩
    refine .inr ⟨line, hline, ?_⟩
    subst hG
    cases willRetry with
    | true => exact settles_putOrErase _ _
    | false => exact settles_eraseIfNullEntry hitem

/-! ## Port masks -/

/-- What the masks of `ports` are for: every snooping port has a bit of its own, and a mask stands
for the snooping ports whose bit it contains. -/
structure Faithful (sh : WordShift) (F : SnoopFilter) (ports : List SlavePort) : Prop where
  oneHot : ∀ p ∈ ports, p.isSnooping = true → ∃ i < 64, F.portToMask sh p = 1#64 <<< i
  disjoint : ∀ p ∈ ports, ∀ q ∈ ports, p.isSnooping = true → q.isSnooping = true → p ≠ q →
    F.portToMask sh p &&& F.portToMask sh q = 0
  nodup : ∀ mask, (F.maskToPortList sh mask).Nodup
  mem_iff : ∀ mask p, p ∈ F.maskToPortList sh mask ↔
    p ∈ ports ∧ p.isSnooping = true ∧ mask &&& F.portToMask sh p = F.portToMask sh p

/-- The snooping ports have distinct ids that index the list of ports. -/
structure ProperIds (ports : List SlavePort) : Prop where
  nodup : ((ports.filter (·.isSnooping)).map (·.id)).Nodup
  lt_length : ∀ p ∈ ports, p.isSnooping = true → p.id < ports.length

theorem addSlavePorts_eq_some {F : SnoopFilter} (id : ℕ)
    (h : ∀ p ∈ ports, p.isSnooping = true → p.id < F.localSlavePortIds.length) :
    ∃ G, F.addSlavePorts id ports = some G := by
  fun_induction F.addSlavePorts id ports with
  | case1 F => exact ⟨F, rfl⟩
  | case2 F id p ports _ _ ih => exact ih (by simpa using fun q hq => h q (mem_cons_of_mem p hq))
  | case3 F _ p ports hp hge => exact absurd (h p mem_cons_self hp) hge
  | case4 F _ p ports _ ih => exact ih fun q hq => h q (mem_cons_of_mem p hq)

theorem addSlavePorts_lt (h : F.addSlavePorts id ports = some G) :
    ∀ p ∈ ports, p.isSnooping = true → p.id < F.localSlavePortIds.length := by
  fun_induction F.addSlavePorts id ports with
  | case1 => exact forall_mem_nil _
  | case2 F id q ports _ hlt ih => exact forall_mem_cons.2 ⟨fun _ => hlt, by simpa using ih h⟩
  | case3 => cases h
  | case4 F id q ports hq ih => exact forall_mem_cons.2 ⟨fun hsnoop => absurd hsnoop hq, ih h⟩

theorem addSlavePorts_slavePorts (h : F.addSlavePorts id ports = some G) :
    G.slavePorts = F.slavePorts ++ ports.filter (·.isSnooping) := by
  fun_induction F.addSlavePorts id ports with
  | case1 =>
    cases h
    simp
  | case2 F id p ports hp _ ih =>
    rw [ih h, filter_cons_of_pos hp]
    simp
  | case3 => cases h
  | case4 F id p ports hp ih => rw [ih h, filter_cons_of_neg hp]

/-- The loop writes the table at the ids of snooping ports only. -/
theorem addSlavePorts_others {n : ℕ} (h : F.addSlavePorts id ports = some G)
    (hn : n ∉ (ports.filter (·.isSnooping)).map (·.id)) :
    G.localSlavePortIds[n]? = F.localSlavePortIds[n]? := by
  fun_induction F.addSlavePorts id ports with
  | case1 =>
    cases h
    rfl
  | case2 F id p ports hp _ ih =>
    rw [filter_cons_of_pos hp, map_cons, mem_cons, not_or] at hn
    rw [ih h hn.2]
    exact List.getElem?_set_ne (Ne.symm hn.1)
  | case3 => cases h
  | case4 F id p ports hp ih =>
    rw [filter_cons_of_neg hp] at hn
    exact ih h hn

/-- The snooping port in position `j` gets local id `id + j`, unless a later one has the same id. -/
theorem addSlavePorts_localId (h : F.addSlavePorts id ports = some G)
    (hnodup : ((ports.filter (·.isSnooping)).map (·.id)).Nodup)
    (hj : (ports.filter (·.isSnooping))[j]? = some p) :
    G.localSlavePortIds[p.id]? = some (some (id + j)) := by
  fun_induction F.addSlavePorts id ports generalizing j with
  | case1 => simp at hj
  | case2 F id q ports hq hlt ih =>
    rw [filter_cons_of_pos hq] at hnodup hj
    rw [map_cons, nodup_cons] at hnodup
    cases j with
    | zero =>
      -- the entry just written is not written again
      obtain rfl : q = p := by simpa using hj
      rw [addSlavePorts_others h hnodup.1]
      simp [hlt]
    | succ j =>
      rw [ih h hnodup.2 (by simpa using hj)]
      congr 2
      omega
  | case3 => cases h
  | case4 F id q ports hq ih =>
    rw [filter_cons_of_neg hq] at hnodup hj
    exact ih h hnodup hj

/-- A one-bit mask is either contained in another mask or disjoint from it. -/
theorem and_bit (mask : SnoopMask) (i : ℕ) :
    mask &&& 1#64 <<< i = if mask.getLsbD i then 1#64 <<< i else 0 :=
  BitVec.and_twoPow mask i

theorem getLsbD_bit (hi : i < 64) (j : ℕ) : (1#64 <<< i).getLsbD j = decide (i = j) := by
  calc (1#64 <<< i).getLsbD j
      = (decide (i < 64) && decide (i = j)) := BitVec.getLsbD_twoPow i j
    _ = decide (i = j) := by simp [hi]

theorem bit_ne_zero (hi : i < 64) : 1#64 <<< i ≠ 0 := by
  intro h
  have hbit := getLsbD_bit hi i
  rw [h] at hbit
  simp at hbit

theorem bit_and_ne_zero_iff (hi : i < 64) (mask : SnoopMask) :
    mask &&& 1#64 <<< i ≠ 0 ↔ mask &&& 1#64 <<< i = 1#64 <<< i := by
  rw [and_bit]
  split
  · exact iff_of_true (bit_ne_zero hi) rfl
  · simpa using (bit_ne_zero hi).symm

section Configuration

variable {cacheLineSize maxCapacity : ℕ}

theorem setSlavePorts_eq_some (h : ∀ p ∈ ports, p.isSnooping = true → p.id < ports.length) :
    ∃ F, (create cacheLineSize maxCapacity).setSlavePorts ports = some F :=
  addSlavePorts_eq_some 0 (by simpa [create] using h)

theorem exists_position (hp : p ∈ ports) (hsnoop : p.isSnooping = true) :
    ∃ j < (ports.filter (·.isSnooping)).length, (ports.filter (·.isSnooping))[j]? = some p := by
  rcases List.getElem?_of_mem (mem_filter.2 ⟨hp, hsnoop⟩) with ⟨j, hj⟩
  exact ⟨j, (List.getElem?_eq_some_iff.1 hj).1, hj⟩

variable (h : (create cacheLineSize maxCapacity).setSlavePorts ports = some F)

include h

theorem setSlavePorts_slavePorts : F.slavePorts = ports.filter (·.isSnooping) := by
  simpa [create] using addSlavePorts_slavePorts h

theorem setSlavePorts_lt : ∀ p ∈ ports, p.isSnooping = true → p.id < ports.length := by
  simpa [create] using addSlavePorts_lt h

/-- Below the word width the mask of the snooping port in position `j` is bit `j`. -/
theorem portToMask_setSlavePorts (hids : ProperIds ports)
    (hj : (ports.filter (·.isSnooping))[j]? = some p) (hlt : j < 64) :
    F.portToMask sh p = 1#64 <<< j := by
  have hsnoop : p.isSnooping = true := (mem_filter.1 (mem_of_getElem? hj)).2
  have hid : F.localSlavePortIds[p.id]? = some (some j) := by
    simpa using addSlavePorts_localId h hids.nodup hj
  rw [portToMask, if_pos hsnoop, hid]
  exact sh.one_of_lt j hlt

theorem faithful_of_properIds (hids : ProperIds ports)
    (hcount : (ports.filter (·.isSnooping)).length ≤ 64) : F.Faithful sh ports := by
  -- every snooping port has a bit, given by its position
  have hbit : ∀ p ∈ ports, p.isSnooping = true →
      ∃ j < 64, (ports.filter (·.isSnooping))[j]? = some p ∧ F.portToMask sh p = 1#64 <<< j := by
    intro p hp hsnoop
    rcases exists_position hp hsnoop with ⟨j, hlt, hj⟩
    exact ⟨j, hlt.trans_le hcount, hj, portToMask_setSlavePorts h hids hj (hlt.trans_le hcount)⟩
  refine ⟨?_, ?_, ?_, ?_⟩
  · intro p hp hsnoop
    rcases hbit p hp hsnoop with ⟨j, hlt, _, hmask⟩
    exact ⟨j, hlt, hmask⟩
  · intro p hp q hq hpsnoop hqsnoop hne
    rcases hbit p hp hpsnoop with ⟨i, hi, hpi, hpmask⟩
    rcases hbit q hq hqsnoop with ⟨j, _, hqj, hqmask⟩
    have hij : i ≠ j := by
      rintro rfl
      exact hne (Option.some.inj (hpi.symm.trans hqj))
    rw [hpmask, hqmask, and_bit, getLsbD_bit hi, if_neg (by simpa using hij)]
  · intro mask
    rw [maskToPortList, setSlavePorts_slavePorts h]
    exact (List.Nodup.of_map _ hids.nodup).filter _
  · intro mask p
    rw [maskToPortList, setSlavePorts_slavePorts h, mem_filter, mem_filter, and_assoc]
    refine and_congr_right fun hp => and_congr_right fun hsnoop => ?_
    rcases hbit p hp hsnoop with ⟨j, hlt, _, hmask⟩
    rw [decide_eq_true_iff, hmask]
    exact bit_and_ne_zero_iff hlt mask

/-- Faithful masks list every snooping port under the full mask, so none occurs twice. -/
theorem Faithful.nodup_snooping (hF : F.Faithful sh ports) :
    (ports.filter (·.isSnooping)).Nodup := by
  have hall : F.maskToPortList sh (BitVec.allOnes 64) = ports.filter (·.isSnooping) := by
    rw [maskToPortList, setSlavePorts_slavePorts h]
    apply filter_eq_self.2
    intro p hp
    rcases mem_filter.1 hp with ⟨hmem, hsnoop⟩
    rcases hF.oneHot p hmem hsnoop with ⟨i, hi, hmask⟩
    rw [decide_eq_true_iff, BitVec.allOnes_and, hmask]
    exact bit_ne_zero hi
  exact hall ▸ hF.nodup _

/-- There are only 64 bits to share out. -/
theorem Faithful.length_le (hF : F.Faithful sh ports) :
    (ports.filter (·.isSnooping)).length ≤ 64 := by
  have hbit : ∀ p, ∃ i : Fin 64, p ∈ ports.filter (·.isSnooping) →
      F.portToMask sh p = 1#64 <<< i.val := by
    intro p
    by_cases hp : p ∈ ports.filter (·.isSnooping)
    · rcases mem_filter.1 hp with ⟨hmem, hsnoop⟩
      rcases hF.oneHot p hmem hsnoop with ⟨i, hi, hmask⟩
      exact ⟨⟨i, hi⟩, fun _ => hmask⟩
    · exact ⟨0, fun hmem => absurd hmem hp⟩
  choose bit hmask using hbit
  have hinj : ∀ p ∈ ports.filter (·.isSnooping), ∀ q ∈ ports.filter (·.isSnooping),
      bit p = bit q → p = q := by
    intro p hp q hq heq
    by_contra hne
    have hdisjoint := hF.disjoint p (mem_filter.1 hp).1 q (mem_filter.1 hq).1
      (mem_filter.1 hp).2 (mem_filter.1 hq).2 hne
    rw [hmask p hp, hmask q hq, heq, BitVec.and_self] at hdisjoint
    exact bit_ne_zero (bit q).isLt hdisjoint
  have hnodup : ((ports.filter (·.isSnooping)).map bit).Nodup :=
    (hF.nodup_snooping h).map_on hinj
  simpa using hnodup.length_le_card

theorem Faithful.properIds (hF : F.Faithful sh ports) : ProperIds ports where
  nodup := by
    apply (hF.nodup_snooping h).map_on
    intro p hp q hq hid
    cases p
    cases q
    simp_all
  lt_length := setSlavePorts_lt h

end Configuration

/-- The masks are faithful exactly for at most 64 snooping ports with ids of their own, whatever the
machine makes of a shift beyond the word. -/
theorem setSlavePorts_faithful_iff (cacheLineSize maxCapacity : ℕ) (ports : List SlavePort) :
    (∃ F, (create cacheLineSize maxCapacity).setSlavePorts ports = some F ∧ F.Faithful sh ports) ↔
      (ports.filter (·.isSnooping)).length ≤ 64 ∧ ProperIds ports := by
  constructor
  · rintro ⟨F, h, hF⟩
    exact ⟨hF.length_le h, hF.properIds h⟩
  · rintro ⟨hcount, hids⟩
    rcases setSlavePorts_eq_some hids.lt_length with ⟨F, h⟩
    exact ⟨F, h, faithful_of_properIds h hids hcount⟩

/-- With 65 snooping ports the first and the last one share a bit. -/
theorem sixtyFivePorts_shareBit :
    ∃ F, (create 64 4096).setSlavePorts ((List.range 65).map (⟨·, true⟩)) = some F ∧
      F.portToMask .wrapping ⟨0, true⟩ = 1 ∧ F.portToMask .wrapping ⟨64, true⟩ = 1 ∧
      ¬ F.Faithful .wrapping ((List.range 65).map (⟨·, true⟩)) := by
  have hmasks : ((create 64 4096).setSlavePorts ((List.range 65).map (⟨·, true⟩))).map
      (fun F => (F.portToMask .wrapping ⟨0, true⟩, F.portToMask .wrapping ⟨64, true⟩)) =
        some (1, 1) := by
    decide +kernel
  rcases map_eq_some_iff.1 hmasks with ⟨F, h, hpair⟩
  rcases Prod.mk.inj hpair with ⟨hfirst, hlast⟩
  refine ⟨F, h, hfirst, hlast, ?_⟩
  intro hF
  have hdisjoint := hF.disjoint ⟨0, true⟩ (by decide) ⟨64, true⟩ (by decide) rfl rfl (by decide)
  rw [hfirst, hlast] at hdisjoint
  exact absurd hdisjoint (by decide)

end SnoopFilter

end EnocGem5.Mem
