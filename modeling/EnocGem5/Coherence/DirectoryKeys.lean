import EnocGem5.Coherence.Frame

/-!
# DirectoryKeys — the addresses in column 0 of the directory

`keys` is column 0 of all rows. A call by a node other than 0 writes states to columns from 1 on
only: it leaves the keys, or appends the key of an address that had no row. A call by node 0 writes
its state over the key.
-/

namespace EnocGem5.Coherence.ENoC

open Mem Noc Lib List

inductive DirCall
  | receivePacket (pkt : Packet) (time : ℤ) (dir_index : ℕ)
  | invalidatePacket (pkt : Packet) (time : ℤ) (dir_index : ℕ)
  | evictPacket (pkt : Packet)

def DirCall.pkt : DirCall → Packet
  | .receivePacket pkt _ _ => pkt
  | .invalidatePacket pkt _ _ => pkt
  | .evictPacket pkt => pkt

def dirStep (S : ENoC) : DirCall → Option ENoC
  | .receivePacket pkt time dir_index => S.receivePacket pkt time dir_index
  | .invalidatePacket pkt time dir_index => S.invalidatePacket pkt time dir_index
  | .evictPacket pkt => some (S.evictPacket pkt)

def keys (S : ENoC) : List ℤ := S.lines.map fun row => row 0

/-- The call reads a row in which no column names a holder. -/
def ReadsUnheld (S : ENoC) : DirCall → Prop
  | .receivePacket pkt _ _ =>
    ∃ index, findLine S.lines (toInt pkt.addr) = some index ∧
      ∀ i, 1 ≤ i → i ≤ numNodes → isHolder (column S.lines index i) = false
  | _ => False

/-- The call comes from a node other than 0, or writes nothing to the directory, and its address is
not truncated by the conversion to `int`. -/
structure KeySafe (S : ENoC) (c : DirCall) : Prop where
  node : nodeOf c.pkt ≠ 0 ∨ ReadsUnheld S c
  addr : c.pkt.addr < 2 ^ 31

/-! ## One call -/

section Call

variable {S S' : ENoC} {pkt : Packet} {addr time : ℤ} {index dir : ℕ} {lines : List Row}

theorem findLine_none (h : findLine lines addr = none) : addr ∉ lines.map fun row => row 0 := by
  rw [findLine, findIdx?_eq_none_iff] at h
  rw [mem_map]
  rintro ⟨row, hrow, rfl⟩
  simpa using h row hrow

theorem findLine_some
    (h : findLine lines addr = some index) : addr ∈ lines.map fun row => row 0 := by
  obtain ⟨hlt, hrow, _⟩ := findIdx?_eq_some_iff_getElem.1 h
  rw [mem_map]
  exact ⟨lines[index], getElem_mem hlt, of_decide_eq_true hrow⟩

theorem keys_setState {c : ℕ} {x : MESI} (hc : c ≠ 0) : (S.setState index c x).keys = S.keys := by
  apply ext_getElem?
  intro j
  simp only [keys, setState, setColumn, getElem?_map, getElem?_modify]
  cases S.lines[j]? with
  | none => rfl
  | some row =>
    by_cases hj : index = j
    · simp [hj, hc.symm]
    · simp [hj]

theorem keys_newRow (hnode : nodeOf pkt ≠ 0) :
    (S.newRow pkt).keys = S.keys ++ [toInt pkt.addr] := by
  simp [keys, newRow, newLine, hnode.symm]

/-- The keys after a call: the address is appended unless it has a row. -/
def KeysAfter (addr : ℤ) (S S' : ENoC) : Prop :=
  (addr ∈ S.keys ∧ S'.keys = S.keys) ∨ (addr ∉ S.keys ∧ S'.keys = S.keys ++ [addr])

theorem KeysAfter.of_lines {R : ENoC} (h : KeysAfter addr S R) (hlines : S'.lines = R.lines) :
    KeysAfter addr S S' := by
  have hkeys : S'.keys = R.keys := by rw [keys, keys, hlines]
  rwa [KeysAfter, hkeys]

theorem keysAfter_newRow (hfind : findLine S.lines (toInt pkt.addr) = none)
    (hnode : nodeOf pkt ≠ 0) : KeysAfter (toInt pkt.addr) S (S.newRow pkt) :=
  .inr ⟨findLine_none hfind, keys_newRow hnode⟩

/-! ### `receivePacket` -/

theorem mem_columns {i : ℕ} : i ∈ (List.range (numNodes + 1)).drop 1 ↔ 1 ≤ i ∧ i ≤ numNodes := by
  have hrange : (range (numNodes + 1)).drop 1 = range' 1 64 := by decide
  rw [hrange, mem_range'_1]
  constructor <;> intro h <;> exact ⟨h.1, by have := h.2; simp only [numNodes] at *; omega⟩

theorem keysAfter_lookupLine (hnode : nodeOf pkt ≠ 0) :
    KeysAfter (toInt pkt.addr) S (S.lookupLine pkt).1 := by
  unfold lookupLine
  cases hfind : findLine S.lines (toInt pkt.addr) with
  | none => exact keysAfter_newRow hfind hnode
  | some index =>
    have hmem := findLine_some hfind
    refine .inl ⟨hmem, ?_⟩
    simp only
    split
    · next i hi =>
        have hpos : i ≠ 0 := by
          have hmem := mem_columns.1 (mem_of_find?_eq_some hi)
          omega
        split_ifs
        · exact keys_setState hnode
        · rw [keys_setState hpos, keys_setState hnode]
    · rfl

theorem lookupLine_unheld (hfind : findLine S.lines (toInt pkt.addr) = some index)
    (hnone : ∀ i, 1 ≤ i → i ≤ numNodes → isHolder (column S.lines index i) = false) :
    S.lookupLine pkt = (S, none) := by
  have hsearch : ((range (numNodes + 1)).drop 1).find?
      (fun i => isHolder (column S.lines index i)) = none := by
    rw [find?_eq_none]
    intro i hi
    have hi := mem_columns.1 hi
    simp [hnone i hi.1 hi.2]
  simp only [lookupLine, hfind, hsearch]

theorem push_lines {src type : ℕ} {pk : PacketNoC} (h : S.push src type pk = some S') :
    S'.lines = S.lines := by
  obtain ⟨tm, _, rfl⟩ := Option.map_eq_some_iff.1 h
  rfl

theorem accessFrame_lines : AccessFrame fun S S' => S'.lines = S.lines where
  refl _ := rfl
  trans h h' := h'.trans h
  setSet _ _ _ _ _ := rfl
  push h := push_lines h

/-! ### `invalidatePacket` and `evictPacket` -/

theorem keys_invalidateNode {i : ℕ}
    (h : invalidateNode pkt time dir index S i = some S') : S'.keys = S.keys := by
  unfold invalidateNode at h
  split_ifs at h
  · obtain ⟨R, hR, hrest⟩ := Option.bind_eq_some_iff.1 h
    cases hrest
    rw [keys_setState (by omega), keys, push_lines hR, accessFrame_lines.putMESI,
      accessFrame_lines.putMESI, accessFrame_lines.putMESI]
    rfl
  · cases h
    rfl

theorem keysAfter_invalidatePacket (hnode : nodeOf pkt ≠ 0)
    (h : S.invalidatePacket pkt time dir = some S') : KeysAfter (toInt pkt.addr) S S' := by
  unfold invalidatePacket at h
  cases hfind : findLine S.lines (toInt pkt.addr) with
  | none =>
    rw [hfind] at h
    cases h
    exact keysAfter_newRow hfind hnode
  | some index =>
    rw [hfind] at h
    obtain ⟨R, hR, hrest⟩ := Option.bind_eq_some_iff.1 h
    have hstep : ∀ i ∈ range numNodes, ∀ P P' : ENoC, P.keys = S.keys →
        invalidateNode pkt time dir index P i = some P' → P'.keys = S.keys :=
      fun i _ P P' hP hP' => (keys_invalidateNode hP').trans hP
    have hloop := foldlM_invariant hstep rfl hR
    cases hrest
    exact .inl ⟨findLine_some hfind, (keys_setState hnode).trans hloop⟩

theorem keysAfter_evictPacket (hnode : nodeOf pkt ≠ 0) :
    KeysAfter (toInt pkt.addr) S (S.evictPacket pkt) := by
  unfold evictPacket
  cases hfind : findLine S.lines (toInt pkt.addr) with
  | none => exact keysAfter_newRow hfind hnode
  | some index => exact .inl ⟨findLine_some hfind, keys_setState hnode⟩

/-- A safe call keeps all keys and gives its address a row if it has none. -/
theorem keysAfter_dirStep {c : DirCall} (hG : KeySafe S c) (h : S.dirStep c = some S') :
    KeysAfter c.pkt.addr S S' := by
  have hcase : KeysAfter (toInt c.pkt.addr) S S' := by
    cases c with
    | receivePacket pkt time dir =>
      have hlines := accessFrame_lines.receivePacket h
      rcases hG.node with hnode | ⟨index, hfind, hnone⟩
      · exact (keysAfter_lookupLine hnode).of_lines hlines
      · rw [lookupLine_unheld hfind hnone] at hlines
        have hsame : KeysAfter (toInt pkt.addr) S S := .inl ⟨findLine_some hfind, rfl⟩
        exact hsame.of_lines hlines
    | invalidatePacket pkt time dir =>
      exact keysAfter_invalidatePacket (hG.node.resolve_right id) h
    | evictPacket pkt =>
      cases h
      exact keysAfter_evictPacket (hG.node.resolve_right id)
  rwa [toInt_of_lt hG.addr] at hcase

end Call

/-! ## Runs -/

structure KeysDistinct (S : ENoC) : Prop where
  length : numNodes ≤ S.keys.length
  nodup : (S.keys.drop numNodes).Nodup

theorem keysDistinct_initial : KeysDistinct {} := by
  have hkeys : ({} : ENoC).keys = replicate numNodes 0 := map_replicate
  constructor
  · rw [hkeys, length_replicate]
  · exact nodup_nil

theorem KeysDistinct.step {S S' : ENoC} {c : DirCall} (hS : S.KeysDistinct) (hG : KeySafe S c)
    (h : S.dirStep c = some S') : S'.KeysDistinct := by
  rcases keysAfter_dirStep hG h with ⟨_, hkeys⟩ | ⟨hnew, hkeys⟩
  · exact ⟨hkeys ▸ hS.length, hkeys ▸ hS.nodup⟩
  · have hlen := hS.length
    constructor
    · rw [hkeys, length_append]
      omega
    · rw [hkeys, drop_append_of_le_length hlen, nodup_append]
      refine ⟨hS.nodup, pairwise_singleton _ _, ?_⟩
      intro a ha b hb
      rw [mem_singleton] at hb
      rintro rfl
      exact hnew (hb ▸ mem_of_mem_drop ha)

/-- A safe run only appends keys, and afterwards every address it was called for has a row. -/
theorem keys_run {S S' : ENoC} {calls : List DirCall} (hS : S.KeysDistinct)
    (hG : Throughout dirStep KeySafe S calls) (h : calls.foldlM dirStep S = some S') :
    S'.KeysDistinct ∧ S.keys <+: S'.keys ∧ ∀ c ∈ calls, (c.pkt.addr : ℤ) ∈ S'.keys := by
  induction calls generalizing S with
  | nil =>
    cases h
    exact ⟨hS, prefix_rfl, forall_mem_nil _⟩
  | cons c calls ih =>
    obtain ⟨R, hR, hrest⟩ := foldlM_cons_some h
    obtain ⟨hGc, hGrest⟩ := hG R hR
    obtain ⟨hdistinct, hpre, hrows⟩ := ih (hS.step hGc hR) hGrest hrest
    have hstep : S.keys <+: R.keys ∧ (c.pkt.addr : ℤ) ∈ R.keys := by
      rcases keysAfter_dirStep hGc hR with ⟨hmem, hkeys⟩ | ⟨_, hkeys⟩
      · rw [hkeys]
        exact ⟨prefix_rfl, hmem⟩
      · rw [hkeys]
        exact ⟨prefix_append _ _, by simp⟩
    exact ⟨hdistinct, hstep.1.trans hpre, forall_mem_cons.2 ⟨hpre.subset hstep.2, hrows⟩⟩

/-- Along a safe run the keys of a state stay the first keys of every later state, appended rows
have distinct keys, and every address called for has a row. -/
theorem keys_integrity (before after : List DirCall) {S S' : ENoC}
    (hS : before.foldlM dirStep {} = some S) (hS' : after.foldlM dirStep S = some S')
    (hG : Throughout dirStep KeySafe {} (before ++ after)) :
    S.keys <+: S'.keys ∧ (S'.keys.drop numNodes).Nodup ∧
      ∀ c ∈ before ++ after, (c.pkt.addr : ℤ) ∈ S'.keys := by
  obtain ⟨hfirst, hsecond⟩ := hG.append hS
  obtain ⟨hdistinct, _, hrows⟩ := keys_run keysDistinct_initial hfirst hS
  obtain ⟨hdistinct', hpre, hrows'⟩ := keys_run hdistinct hsecond hS'
  refine ⟨hpre, hdistinct'.nodup, forall_mem_append.2 ⟨fun c hc => ?_, hrows'⟩⟩
  exact hpre.subset (hrows c hc)

/-- An eviction by a node, for an address that is no state. -/
def evictionBy (node : ℕ) : DirCall :=
  .evictPacket { cmd := .CleanEvict, req := { masterId := node }, addr := 0x100000 }

theorem keys_integrity_evictions :
    ∃ S S' : ENoC, [evictionBy 1].foldlM dirStep {} = some S ∧
      [evictionBy 2].foldlM dirStep S = some S' ∧
      S.keys <+: S'.keys ∧ (S'.keys.drop numNodes).Nodup ∧
      ∀ c ∈ [evictionBy 1] ++ [evictionBy 2], (c.pkt.addr : ℤ) ∈ S'.keys := by
  have hsafe : ∀ S : ENoC, KeySafe S (evictionBy 1) ∧ KeySafe S (evictionBy 2) :=
    fun S => ⟨⟨.inl (by decide), by decide⟩, ⟨.inl (by decide), by decide⟩⟩
  refine ⟨_, _, rfl, rfl, keys_integrity [evictionBy 1] [evictionBy 2] rfl rfl ?_⟩
  exact fun S _ => ⟨(hsafe _).1, fun S' _ => ⟨(hsafe _).2, trivial⟩⟩

/-- Node 1 evicts an address and gets a row for it. Then node 0 evicts it: its state is written over
the address. -/
theorem nodeZero_overwritesKey :
    ∃ S S' : ENoC, [evictionBy 1].foldlM dirStep {} = some S ∧
      [evictionBy 0].foldlM dirStep S = some S' ∧
      (0x100000 : ℤ) ∈ S.keys ∧ ¬ S.keys <+: S'.keys ∧ (0x100000 : ℤ) ∉ S'.keys :=
  ⟨_, _, rfl, rfl, by decide +kernel, by decide +kernel, by decide +kernel⟩

end EnocGem5.Coherence.ENoC
