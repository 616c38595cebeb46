import EnocGem5.Coherence.Effects

/-!
# SingleWriter — when a block has one owner or only readers

A block is looked up by tag and set, so two blocks with the same tag that share a set cannot be told
apart there. `SingleWriter` is about the tag in the sets of a block, over all blocks and nodes.

The directory does not keep it: it files a node under column `node` and reads column `i` as node
`i - 1`, and it has a row per address, not per block. `ProcessGuard` says, for every access, what
must be true of the state before it for the branch that `process` takes to be the right one.
-/

namespace EnocGem5.Coherence.ENoC

open Mem Noc Lib Option CacheSet

/-! ## The property -/

/-- A data cache of the node holds the block in state `M` or `E`. -/
def Owns (S : ENoC) (node addr : ℕ) : Prop :=
  ∃ l : Level, l ≠ .L1I ∧ ∃ x : MESI, (x = .M ∨ x = .E) ∧ (S.set l node addr).Holds (tagOf addr) x

/-- A cache of the node holds the block in state `M`, `E` or `S`. -/
def HasCopy (S : ENoC) (node addr : ℕ) : Prop :=
  ∃ (l : Level) (x : MESI), x ≠ .I ∧ (S.set l node addr).Holds (tagOf addr) x

/-- While a node owns a block, no other node has a copy. -/
def SingleWriter (S : ENoC) : Prop :=
  ∀ addr, ∀ m < numNodes, ∀ n < numNodes, m ≠ n → S.Owns m addr → ¬ S.HasCopy n addr

/-! ## The conditions -/

/-- The blocks have the same tag and meet in a set of the level. -/
def MeetIn (l : Level) (addr other : ℕ) : Prop :=
  tagOf other = tagOf addr ∧ l.index other = l.index addr

variable (pkt : Packet) (S : ENoC)

/-- Before a write: another node that has a copy of a block meeting the written one in a set that is
filled is listed in the row that `invalidatePacket` finds, and has the copy in a set that it
  clears. -/
def WriteGuard : Prop :=
  ∀ m < numNodes, m ≠ nodeOf pkt →
    ∀ other, MeetIn .L1D pkt.addr other ∨ MeetIn .L2 pkt.addr other →
    ∀ (l : Level) (x : MESI), x ≠ .I → (S.set l m other).Holds (tagOf other) x →
      l.index other = l.index pkt.addr ∧
      ∃ index, findLine S.lines (toInt pkt.addr) = some index ∧
        column S.lines index (m + 1) ≠ MESI.I.bits

/-- Before the line is taken from the node that the row names: no third node owns it. -/
def ShareGuard (i : ℕ) (S : ENoC) : Prop :=
  ∀ m < numNodes, m ≠ i → ∀ other l, MeetIn l pkt.addr other → ¬ S.Owns m other

/-- Before the line is taken from memory: no other node has a copy of a block that meets it in a set
that `askMemory` fills. -/
def MemoryGuard : Prop :=
  ∀ m < numNodes, m ≠ nodeOf pkt →
    ∀ other, MeetIn (requestLevel pkt) pkt.addr other ∨ MeetIn .L2 pkt.addr other →
      ¬ S.HasCopy m other

/-- The conditions of `receivePacket`, on the branch it takes. -/
def ReceiveGuard : Prop :=
  match S.lookupLine pkt with
  | (S, some i) =>
    ShareGuard pkt (i - 1) S ∧
      ((S.shareL1 pkt (i - 1)).present .L2 (i - 1) pkt.addr = false →
        MemoryGuard pkt (S.shareL1 pkt (i - 1)))
  | (S, none) => MemoryGuard pkt S

/-- Before an invalidated L1 copy is refreshed from L2: nobody else owns a block that the L1 set
confuses with this one, or has a copy of it if the L2 copy is owned. -/
def RefreshGuard (l1 : Level) (pkt : Packet) (S : ENoC) : Prop :=
  ∀ m < numNodes, m ≠ nodeOf pkt → ∀ other, MeetIn l1 pkt.addr other →
    ¬ S.Owns m other ∧ (S.mesi .L2 (nodeOf pkt) pkt.addr ≠ .S → ¬ S.HasCopy m other)

/-- The conditions of a read that does not hit the L1 cache. -/
structure ReadGuard (l1 : Level) (pkt : Packet) (S : ENoC) : Prop where
  refresh : S.present l1 (nodeOf pkt) pkt.addr = true → S.mesi l1 (nodeOf pkt) pkt.addr = .I →
    S.mesi .L2 (nodeOf pkt) pkt.addr ≠ .I → RefreshGuard l1 pkt S
  ask : S.present l1 (nodeOf pkt) pkt.addr = false ∨
    (S.mesi l1 (nodeOf pkt) pkt.addr = .I ∧ S.mesi .L2 (nodeOf pkt) pkt.addr = .I) →
    ReceiveGuard pkt S

/-- The condition of a call of `process`, by its command. -/
def ProcessGuard (pkt : Packet) : Prop :=
  match cmdOf pkt with
  | 0 => ReadGuard .L1I pkt S
  | 1 => ReadGuard .L1D pkt S
  | 2 => WriteGuard pkt S
  | 3 => WriteGuard pkt S
  | 4 => WriteGuard pkt S
  | _ => True

/-! ## One step -/

variable {S pkt} {S' : ENoC} {time : ℤ} {dir i m n addr b : ℕ} {l l1 : Level} {x : MESI}

theorem ne_I_of_owned (h : x = .M ∨ x = .E) : x ≠ .I := by
  rcases h with rfl | rfl <;> simp

theorem owns_iff (hS : S.Unambiguous) :
    S.Owns m addr ↔ ∃ l : Level, l ≠ .L1I ∧ (S.mesi l m addr = .M ∨ S.mesi l m addr = .E) := by
  constructor
  · rintro ⟨l, hl, x, hx, hholds⟩
    have hmesi := (holds_iff (hS _) (ne_I_of_owned hx)).1 hholds
    refine ⟨l, hl, ?_⟩
    rw [mesi, set, hmesi]
    exact hx
  · rintro ⟨l, hl, hmesi⟩
    exact ⟨l, hl, S.mesi l m addr, hmesi, (holds_iff (hS _) (ne_I_of_owned hmesi)).2 rfl⟩

theorem hasCopy_iff (hS : S.Unambiguous) :
    S.HasCopy m addr ↔ ∃ l : Level, S.mesi l m addr ≠ .I := by
  constructor
  · rintro ⟨l, x, hx, hholds⟩
    have hmesi := (holds_iff (hS _) hx).1 hholds
    refine ⟨l, ?_⟩
    rw [mesi, set, hmesi]
    exact hx
  · rintro ⟨l, hmesi⟩
    exact ⟨l, S.mesi l m addr, hmesi, (holds_iff (hS _) hmesi).2 rfl⟩

theorem HasCopy.of_owns (h : S.Owns m addr) : S.HasCopy m addr := by
  obtain ⟨l, _, x, hx, hholds⟩ := h
  exact ⟨l, x, ne_I_of_owned hx, hholds⟩

/-- The copies of node `m` are kept or lost. -/
def NodeKept (m : ℕ) (S S' : ENoC) : Prop :=
  ∀ l b, S'.mesi l m b = S.mesi l m b ∨ S'.mesi l m b = .I

theorem NodeKept.hasCopy (h : NodeKept m S S') (hS : S.Unambiguous) (hS' : S'.Unambiguous)
    (hcopy : S'.HasCopy m addr) : S.HasCopy m addr := by
  obtain ⟨l, hl⟩ := (hasCopy_iff hS').1 hcopy
  refine (hasCopy_iff hS).2 ⟨l, ?_⟩
  rcases h l addr with hkept | hlost
  · rwa [hkept] at hl
  · exact absurd hlost hl

theorem NodeKept.owns (h : NodeKept m S S') (hS : S.Unambiguous) (hS' : S'.Unambiguous)
    (howns : S'.Owns m addr) : S.Owns m addr := by
  obtain ⟨l, hne, hl⟩ := (owns_iff hS').1 howns
  refine (owns_iff hS).2 ⟨l, hne, ?_⟩
  rcases h l addr with hkept | hlost
  · rwa [hkept] at hl
  · exact absurd hlost (ne_I_of_owned hl)

theorem Changes.nodeKept {W : Key → Prop} (h : Changes W S S') (hW : ∀ k, W k → k.2.1 ≠ m) :
    NodeKept m S S' := by
  intro l b
  exact h.kept (keyOf l m b) fun hk => hW _ hk rfl

theorem node_ne_of_keyOf {l₁ l₂ : Level} (hne : m ≠ n) (k : Key)
    (hk : k = keyOf l₁ n addr ∨ k = keyOf l₂ n addr) : k.2.1 ≠ m := by
  rcases hk with rfl | rfl
  · exact hne.symm
  · exact hne.symm

theorem meetIn_of_keyOf_eq {l' : Level} (h : keyOf l n b = keyOf l' n addr) : MeetIn l' addr b := by
  simp only [keyOf, Prod.mk.injEq] at h
  obtain ⟨rfl, _, hindex, htag⟩ := h
  exact ⟨htag, hindex⟩

/-- A step that writes copies of node `j` only keeps the property if its new copies meet no owner
and its new owned copies meet no copy. -/
theorem singleWriter_of_new {j : ℕ} (hS : S.Unambiguous) (hS' : S'.Unambiguous)
    (hsw : S.SingleWriter) (hkept : ∀ m, m ≠ j → NodeKept m S S')
    (hcopy : ∀ b l, S'.mesi l j b ≠ .I → S'.mesi l j b ≠ S.mesi l j b →
      ∀ m < numNodes, m ≠ j → ¬ S'.Owns m b)
    (hown : ∀ b l, S'.mesi l j b = .M ∨ S'.mesi l j b = .E → l ≠ .L1I →
      S'.mesi l j b ≠ S.mesi l j b → ∀ m < numNodes, m ≠ j → ¬ S'.HasCopy m b) :
    S'.SingleWriter := by
  intro b m hm n hn hne howns hhas
  by_cases hmj : m = j
  · subst hmj
    obtain ⟨l, hl, hmesi⟩ := (owns_iff hS').1 howns
    by_cases hnew : S'.mesi l m b = S.mesi l m b
    · -- an old owner: the other copy is old as well
      have howns' : S.Owns m b := (owns_iff hS).2 ⟨l, hl, by rwa [← hnew]⟩
      exact hsw b m hm n hn hne howns' ((hkept n hne.symm).hasCopy hS hS' hhas)
    · exact hown b l hmesi hl hnew n hn hne.symm hhas
  · have howns' : S.Owns m b := (hkept m hmj).owns hS hS' howns
    by_cases hnj : n = j
    · subst hnj
      obtain ⟨l, hl⟩ := (hasCopy_iff hS').1 hhas
      by_cases hnew : S'.mesi l n b = S.mesi l n b
      · exact hsw b m hm n hn hne howns' ((hasCopy_iff hS).2 ⟨l, by rwa [← hnew]⟩)
      · exact hcopy b l hl hnew m hm hne howns
    · exact hsw b m hm n hn hne howns' ((hkept n hnj).hasCopy hS hS' hhas)

theorem singleWriter_of_changes (hS : S.Unambiguous) (hsw : S.SingleWriter)
    (h : Changes (fun _ => False) S S') : S'.SingleWriter := by
  have hkept : ∀ m, NodeKept m S S' := fun m => h.nodeKept fun _ hk => hk.elim
  intro b m hm n hn hne howns hhas
  exact hsw b m hm n hn hne ((hkept m).owns hS h.unambiguous howns)
    ((hkept n).hasCopy hS h.unambiguous hhas)

/-- A step that writes the copies of one node for an address keeps the property if no other node has
a copy afterwards. -/
theorem singleWriter_of_exclusive {l₁ l₂ : Level} (hS : S.Unambiguous) (hsw : S.SingleWriter)
    (h : Changes (fun k => k = keyOf l₁ n addr ∨ k = keyOf l₂ n addr) S S')
    (hnone : ∀ m < numNodes, m ≠ n → ∀ b, MeetIn l₁ addr b ∨ MeetIn l₂ addr b → ¬ S'.HasCopy m b) :
    S'.SingleWriter := by
  have hmeet : ∀ b l, S'.mesi l n b ≠ .I → S'.mesi l n b ≠ S.mesi l n b →
      MeetIn l₁ addr b ∨ MeetIn l₂ addr b := by
    intro b l hvalid hnew
    by_contra hno
    have hW : ¬ (keyOf l n b = keyOf l₁ n addr ∨ keyOf l n b = keyOf l₂ n addr) := by
      rintro (hk | hk)
      · exact hno (.inl (meetIn_of_keyOf_eq hk))
      · exact hno (.inr (meetIn_of_keyOf_eq hk))
    rcases h.kept (keyOf l n b) hW with hkept | hlost
    · exact hnew hkept
    · exact hvalid hlost
  refine singleWriter_of_new (j := n) hS h.unambiguous hsw
    (fun m hm => h.nodeKept (node_ne_of_keyOf hm)) ?_ ?_
  · intro b l hvalid hnew m hm hmn howns
    exact hnone m hm hmn b (hmeet b l hvalid hnew) (HasCopy.of_owns howns)
  · intro b l howner _ hnew m hm hmn hhas
    exact hnone m hm hmn b (hmeet b l (ne_I_of_owned howner) hnew) hhas

theorem singleWriter_congr (h : S'.cache = S.cache) (hsw : S.SingleWriter) : S'.SingleWriter := by
  intro b m hm n hn hne howns hhas
  refine hsw b m hm n hn hne ?_ ?_
  · simpa [Owns, set, h] using howns
  · simpa [HasCopy, set, h] using hhas

/-! ## The accesses -/

/-- The state is unambiguous and no block has an owner beside another copy. -/
structure Coherent (S : ENoC) : Prop where
  unambiguous : S.Unambiguous
  singleWriter : S.SingleWriter

theorem Coherent.congr (h : S.Coherent) (hcache : S'.cache = S.cache) : S'.Coherent :=
  ⟨fun y => hcache ▸ h.unambiguous y, singleWriter_congr hcache h.singleWriter⟩

/-- A copy that a write has made is in the set and with the tag of the written one. -/
theorem putMESI_new (hS : S.Unambiguous) (hS' : S' = S.putMESI l1 n addr x)
    (hvalid : S'.mesi l n b ≠ .I) (hdiff : S'.mesi l n b ≠ S.mesi l n b) :
    MeetIn l1 addr b ∧ S'.mesi l n b = x := by
  subst hS'
  have hk : keyOf l n b = keyOf l1 n addr := by
    by_contra hk
    rcases (changes_putMESI hS l1 n addr x).kept (keyOf l n b) (fun hW => hk hW.1) with
      hsame | hlost
    · exact hdiff hsame
    · exact hvalid hlost
  have hp : S.present l1 n addr = true := by
    by_contra hp
    have hsame : S.putMESI l1 n addr x = S := if_neg hp
    exact hdiff (by rw [hsame])
  have hvalue := copies_putMESI (x := x) hp
  rw [← hk] at hvalue
  exact ⟨meetIn_of_keyOf_eq hk, hvalue⟩

section Coherent

variable (hS : S.Coherent)
include hS

theorem Coherent.of_changes (h : Changes (fun _ => False) S S') : S'.Coherent :=
  ⟨h.unambiguous, singleWriter_of_changes hS.unambiguous hS.singleWriter h⟩

/-- Setting copies to `S` is safe if nobody else owns the line. -/
theorem Coherent.of_downgrades (h : Downgrades i pkt.addr S S')
    (hG : ShareGuard pkt i S) : S'.Coherent := by
  have hkept : ∀ m, m ≠ i → NodeKept m S S' := by
    intro m hm l b
    rcases h.copies (keyOf l m b) with hk | ⟨⟨l', hk⟩, _⟩
    · exact .inl hk
    · exact absurd (congrArg (fun k : Key => k.2.1) hk) hm
  refine ⟨h.unambiguous,
    singleWriter_of_new hS.unambiguous h.unambiguous hS.singleWriter hkept ?_ ?_⟩
  · intro b l _ hnew m hm hmi howns
    rcases h.copies (keyOf l i b) with hk | ⟨⟨l', hk⟩, _⟩
    · exact hnew hk
    · exact hG m hm hmi b l' (meetIn_of_keyOf_eq hk)
        ((hkept m hmi).owns hS.unambiguous h.unambiguous howns)
  · intro b l howner _ hnew
    rcases h.copies (keyOf l i b) with hk | ⟨_, hk⟩
    · exact absurd hk hnew
    · have hmesi : S'.mesi l i b = .S := hk
      rw [hmesi] at howner
      simp at howner

theorem Coherent.askMemory (hG : MemoryGuard pkt S)
    (h : S.askMemory pkt time dir = some S') : S'.Coherent := by
  have heffect := askMemory_effect hS.unambiguous h
  refine ⟨heffect.unambiguous, singleWriter_of_exclusive hS.unambiguous hS.singleWriter heffect ?_⟩
  intro m hm hne b hb hhas
  have hkept : NodeKept m S S' := heffect.nodeKept (node_ne_of_keyOf hne)
  exact hG m hm hne b hb (hkept.hasCopy hS.unambiguous heffect.unambiguous hhas)

theorem Coherent.receivePacket (hG : ReceiveGuard pkt S)
    (h : S.receivePacket pkt time dir = some S') : S'.Coherent := by
  unfold ENoC.receivePacket at h
  unfold ReceiveGuard at hG
  have hcache := lookupLine_cache S pkt
  rcases hlookup : S.lookupLine pkt with ⟨R, _ | i⟩
  · rw [hlookup] at h hG hcache
    exact (hS.congr hcache).askMemory hG h
  · rw [hlookup] at h hG hcache
    obtain ⟨hshare, hmemory⟩ := hG
    have hR : R.Coherent := hS.congr hcache
    have hL1 := downgrades_shareL1 hR.unambiguous pkt (i - 1)
    simp only at h
    split_ifs at h with hp
    · exact hR.of_downgrades (hL1.trans (shareL2_effect hL1.unambiguous hp h)) hshare
    · have hR' : (R.shareL1 pkt (i - 1)).Coherent := hR.of_downgrades hL1 hshare
      exact hR'.askMemory (hmemory (by simpa using hp)) h

theorem Coherent.askDirectory (hG : ReceiveGuard pkt S)
    (h : S.askDirectory pkt = some S') : S'.Coherent := by
  obtain ⟨R, hR, hrest⟩ := bind_eq_some_iff.1 h
  exact (hS.receivePacket hG hR).congr (push_cache hrest).1

theorem Coherent.updateLRU {node w : ℕ} (h : S.updateLRU l node addr w = some S') : S'.Coherent :=
  hS.of_changes (updateLRU_effect hS.unambiguous h).1

/-- The L1 copy takes the state of the node's own L2 copy. -/
theorem Coherent.refresh (hG : RefreshGuard l1 pkt S)
    (hS' : S' = S.putMESI l1 (nodeOf pkt) pkt.addr (S.mesi .L2 (nodeOf pkt) pkt.addr)) :
    S'.Coherent := by
  have hchanges := changes_putMESI hS.unambiguous l1 (nodeOf pkt) pkt.addr
    (S.mesi .L2 (nodeOf pkt) pkt.addr)
  rw [← hS'] at hchanges
  have hkept : ∀ m, m ≠ nodeOf pkt → NodeKept m S S' := by
    intro m hm
    refine hchanges.nodeKept ?_
    rintro k ⟨rfl, _⟩
    exact hm.symm
  refine ⟨hchanges.unambiguous, singleWriter_of_new hS.unambiguous hchanges.unambiguous
    hS.singleWriter hkept ?_ ?_⟩
  · intro b l hvalid hdiff m hm hne howns
    obtain ⟨hmeet, _⟩ := putMESI_new hS.unambiguous hS' hvalid hdiff
    exact (hG m hm hne b hmeet).1 ((hkept m hne).owns hS.unambiguous hchanges.unambiguous howns)
  · intro b l howner _ hdiff m hm hne hhas
    obtain ⟨hmeet, hvalue⟩ := putMESI_new hS.unambiguous hS' (ne_I_of_owned howner) hdiff
    rw [hvalue] at howner
    refine (hG m hm hne b hmeet).2 ?_
      ((hkept m hne).hasCopy hS.unambiguous hchanges.unambiguous hhas)
    rcases howner with h | h <;> simp [h]

end Coherent

theorem RefreshGuard.congr (h : S'.copies = S.copies) (hS : S.Unambiguous) (hS' : S'.Unambiguous)
    (hG : RefreshGuard l1 pkt S) : RefreshGuard l1 pkt S' := by
  have hkept : ∀ m, NodeKept m S S' := fun m l b => .inl (congrFun h (keyOf l m b))
  intro m hm hne b hmeet
  obtain ⟨hown, hcopy⟩ := hG m hm hne b hmeet
  refine ⟨fun howns => hown ((hkept m).owns hS hS' howns), fun hL2 hhas => ?_⟩
  refine hcopy ?_ ((hkept m).hasCopy hS hS' hhas)
  rwa [mesi_eq, ← h, ← mesi_eq]

theorem Coherent.read (hS : S.Coherent) (hG : ReadGuard l1 pkt S) (h : S.read l1 pkt = some S') :
    S'.Coherent := by
  simp only [ENoC.read] at h
  split_ifs at h with hp hI hL2
  · exact hS.updateLRU h
  · -- two LRU updates, which leave all copies, and then the write
    simp only [bind_eq_bind, bind_eq_some_iff] at h
    obtain ⟨Q, hQ, R, hR, hrest⟩ := h
    have hR' : R.Coherent := (hS.updateLRU hQ).updateLRU hR
    have hcopies : R.copies = S.copies := (copies_updateLRU hR).trans (copies_updateLRU hQ)
    cases hrest
    exact hR'.refresh (RefreshGuard.congr hcopies hS.unambiguous hR'.unambiguous
      (hG.refresh hp (not_not.1 hI) hL2.2)) rfl
  · have hmiss : S.mesi .L2 (nodeOf pkt) pkt.addr = .I := by
      by_contra hvalid
      refine hL2 ⟨?_, hvalid⟩
      by_contra hp2
      exact hvalid (mesi_of_absent (by simpa using hp2))
    exact hS.askDirectory (hG.ask (.inr ⟨not_not.1 hI, hmiss⟩)) h
  · exact hS.askDirectory (hG.ask (.inl (by simpa using hp))) h

/-- A write changes copies of its node only, and clears those of the nodes that the row lists. -/
theorem write_effect (hS : S.Unambiguous) (h : S.write x pkt = some S') :
    Changes (fun k => k = keyOf .L1D (nodeOf pkt) pkt.addr ∨ k = keyOf .L2 (nodeOf pkt) pkt.addr)
      S S' ∧ ∀ index, findLine S.lines (toInt pkt.addr) = some index →
        ∀ m < numNodes, m ≠ nodeOf pkt → column S.lines index (m + 1) ≠ MESI.I.bits →
        ∀ l, S'.mesi l m pkt.addr = .I := by
  simp only [ENoC.write, bind_eq_bind, bind_eq_some_iff] at h
  obtain ⟨⟨R₁, w⟩, h₁, R₂, h₂, R₃, h₃, R₄, h₄, ⟨R₅, w'⟩, h₅, h₆⟩ := h
  obtain ⟨hc₁, hp₁, hw₁, hlines⟩ := allocate_effect hS h₁
  obtain ⟨hc₂, htags, hlost⟩ := invalidatePacket_effect hc₁.unambiguous h₂
  have hcache₃ := (push_cache h₃).1
  have hU₃ : R₃.Unambiguous := fun y => hcache₃ ▸ hc₂.unambiguous y
  have htags₃ : SameTags R₁ R₃ := htags.trans fun y => by rw [hcache₃]
  obtain ⟨hc₄, _⟩ := finishWrite_effect hU₃ ((htags₃.present .L1D _ _).trans hp₁)
    ((htags₃.way .L1D _ _).trans hw₁) h₄
  obtain ⟨hc₅, hp₅, hw₅, _⟩ := allocate_effect hc₄.unambiguous h₅
  obtain ⟨hc₆, _⟩ := finishWrite_effect hc₅.unambiguous hp₅ hw₅ h₆
  -- after the directory only copies of the writing node are written
  have hlate : Changes (fun k => k = keyOf .L1D (nodeOf pkt) pkt.addr ∨
      k = keyOf .L2 (nodeOf pkt) pkt.addr) R₂ S' :=
    (((changes_of_cache hc₂.unambiguous hcache₃).trans (hc₄.mono fun _ => .inl)).trans
      (hc₅.mono fun _ => .inr)).trans (hc₆.mono fun _ => .inr)
  refine ⟨((hc₁.mono fun _ => .inl).trans (hc₂.mono fun _ hk => hk.elim)).trans hlate, ?_⟩
  intro index hfind m hm hne hcol l
  rw [← hlines] at hfind hcol
  have hcleared : R₂.mesi l m pkt.addr = .I := hlost index hfind m hm hcol l
  rcases hlate.nodeKept (node_ne_of_keyOf hne) l pkt.addr with hkept | hI
  · exact hkept.trans hcleared
  · exact hI

theorem Coherent.write (hS : S.Coherent) (hG : WriteGuard pkt S) (h : S.write x pkt = some S') :
    S'.Coherent := by
  obtain ⟨hall, hcleared⟩ := write_effect hS.unambiguous h
  refine ⟨hall.unambiguous, singleWriter_of_exclusive hS.unambiguous hS.singleWriter hall ?_⟩
  intro m hm hne b hb hhas
  obtain ⟨l, hl⟩ := (hasCopy_iff hall.unambiguous).1 hhas
  -- the copy is an old one, so it was listed and the loop has cleared it
  have hold : S.mesi l m b ≠ .I := by
    rcases hall.nodeKept (node_ne_of_keyOf hne) l b with hkept | hI
    · rwa [hkept] at hl
    · exact absurd hI hl
  obtain ⟨hindex, index, hfind, hcol⟩ := hG m hm hne b hb l (S.mesi l m b) hold
    ((holds_iff (hS.unambiguous _) hold).2 rfl)
  have htag : tagOf b = tagOf pkt.addr := hb.elim And.left And.left
  have hkey : keyOf l m b = keyOf l m pkt.addr := by
    rw [keyOf, keyOf, hindex, htag]
  refine hl ?_
  rw [mesi_eq, hkey]
  exact hcleared index hfind m hm hne hcol l

theorem Coherent.evict (hS : S.Coherent) (h : S.evict pkt = some S') : S'.Coherent := by
  simp only [ENoC.evict, bind_eq_bind, bind_eq_some_iff] at h
  obtain ⟨Q, hQ, R, hR, hrest⟩ := h
  have hput := hS.of_changes (changes_putMESI_I hS.unambiguous .L1D (nodeOf pkt) pkt.addr)
  have hcache : ((S.putMESI .L1D (nodeOf pkt) pkt.addr .I).evictPacket pkt).cache =
      (S.putMESI .L1D (nodeOf pkt) pkt.addr .I).cache := by
    unfold evictPacket
    split <;> rfl
  have hR' := ((hput.congr hcache).congr (push_cache hQ).1).congr (push_cache hR).1
  cases hrest
  exact hR'.of_changes (changes_putMESI_I hR'.unambiguous .L2 (nodeOf pkt) pkt.addr)

theorem Coherent.process (hS : S.Coherent) (hG : ProcessGuard S pkt) (h : S.process pkt = some S') :
    S'.Coherent := by
  unfold ENoC.process at h
  unfold ProcessGuard at hG
  split_ifs at h
  split at h <;> rename_i hcmd <;> simp only [hcmd] at hG
  · exact hS.read hG h
  · exact hS.read hG h
  · exact hS.write hG h
  · exact hS.write hG h
  · exact hS.write hG h
  · exact hS.evict h
  · cases h
    exact hS

theorem holds_initial (hx : x ≠ .I) : ¬ ((({} : ENoC).set l n addr).Holds (tagOf addr) x) := by
  rintro ⟨line, hmem, _, hstate⟩
  simp only [set, setLRUbitsToWay, List.mem_map] at hmem
  obtain ⟨w, _, rfl⟩ := hmem
  exact hx hstate.symm

theorem coherent_initial : Coherent {} := by
  refine ⟨fun y => unambiguous_setLRUbitsToWay _, ?_⟩
  rintro addr m _ n _ _ _ ⟨l, x, hx, hholds⟩
  exact holds_initial hx hholds

/-! ## Runs -/

/-- In a run whose calls all meet their condition, an owned block has no other copy at any time. -/
theorem singleWriter_of_guarded (pkts : List Packet) (h : Throughout process ProcessGuard {} pkts) :
    Always process SingleWriter {} pkts :=
  Always.of_throughout (fun _ hS => hS.singleWriter)
    (fun _ _ _ hS hG hstep => Coherent.process hS hG hstep) coherent_initial h

/-- A request of a node for an address whose tag is not 0. -/
def request (cmd : MemCmd) (node : ℕ) : Packet :=
  { cmd := cmd, req := { masterId := node }, addr := 0x100000 }

/-- Node 1 and then node 2 write a block. The row of node 1's write lists node 1 in column 2, so the
second write clears node 1's copies. -/
theorem singleWriter_twoWriters :
    ∃ S, [request .WriteReq 1, request .WriteReq 2].foldlM process {} = some S ∧
      S.Owns 2 0x100000 ∧ ¬ S.HasCopy 1 0x100000 ∧
      Always process SingleWriter {} [request .WriteReq 1, request .WriteReq 2] := by
  have hrun : ((process {} (request .WriteReq 1)).bind fun S₁ =>
      (process S₁ (request .WriteReq 2)).map fun S₂ =>
        ((findLine S₁.lines (toInt 0x100000)).map (column S₁.lines · 2),
          decide ((S₂.set .L2 2 0x100000).Holds (tagOf 0x100000) .M))) = some (some 0, true) := by
    decide +kernel
  obtain ⟨S₁, h₁, hrun⟩ := bind_eq_some_iff.1 hrun
  obtain ⟨S₂, h₂, hvalues⟩ := map_eq_some_iff.1 hrun
  obtain ⟨hrow, howner⟩ := Prod.mk.inj hvalues
  obtain ⟨index, hfind, hcol⟩ := map_eq_some_iff.1 hrow
  have hguard : WriteGuard (request .WriteReq 2) S₁ := by
    intro m _ _ other _ l x hx hholds
    -- the only copies are those of node 1 for the block
    obtain ⟨hchanges, _⟩ := write_effect coherent_initial.unambiguous h₁
    have hmesi : S₁.copies (keyOf l m other) ≠ .I := by
      rw [← mesi_eq, mesi, set, (holds_iff (hchanges.unambiguous _) hx).1 hholds]
      exact hx
    have hkey : keyOf l m other = keyOf .L1D 1 0x100000 ∨
        keyOf l m other = keyOf .L2 1 0x100000 := by
      by_contra hno
      rcases hchanges.kept _ hno with hkept | hI
      · have hheld : (({} : ENoC).set l m other).Holds (tagOf other) _ :=
          (holds_iff (coherent_initial.unambiguous _) hmesi).2 hkept.symm
        exact holds_initial hmesi hheld
      · exact hmesi hI
    have hlisted : column S₁.lines index 2 ≠ MESI.I.bits := by
      rw [hcol]
      decide
    simp only [keyOf, Prod.mk.injEq] at hkey
    rcases hkey with ⟨rfl, rfl, hindex, _⟩ | ⟨rfl, rfl, hindex, _⟩
    · exact ⟨hindex, index, hfind, hlisted⟩
    · exact ⟨hindex, index, hfind, hlisted⟩
  have halways : Always process SingleWriter {} [request .WriteReq 1, request .WriteReq 2] := by
    apply singleWriter_of_guarded
    intro S h
    obtain rfl : S₁ = S := some.inj (h₁.symm.trans h)
    refine ⟨?_, fun _ _ => ⟨hguard, trivial⟩⟩
    intro m _ _ other _ l x hx hholds
    exact absurd hholds (holds_initial hx)
  have hlast : [request .WriteReq 1, request .WriteReq 2].foldlM process {} = some S₂ := by
    simp [h₁, h₂]
  have howns : S₂.Owns 2 0x100000 := ⟨.L2, by decide, .M, .inl rfl, of_decide_eq_true howner⟩
  exact ⟨S₂, hlast, howns,
    halways.last hlast 0x100000 2 (by decide) 1 (by decide) (by decide) howns, halways⟩

/-- Node 1 and then node 2 read a block. The row files node 1 under column 1, which is read as node
0, so node 1 keeps its copy and both nodes own the block. -/
theorem twoReaders_bothOwn :
    ¬ Always process SingleWriter {} [request .ReadReq 1, request .ReadReq 2] := by
  intro h
  have hrun : ((process {} (request .ReadReq 1)).bind fun S =>
      (process S (request .ReadReq 2)).bind fun S =>
        some (decide ((S.set .L2 1 0x100000).Holds (tagOf 0x100000) .E ∧
          (S.set .L2 2 0x100000).Holds (tagOf 0x100000) .E))) = some true := by
    decide +kernel
  obtain ⟨S₁, h₁, hrun⟩ := bind_eq_some_iff.1 hrun
  obtain ⟨S₂, h₂, hrun⟩ := bind_eq_some_iff.1 hrun
  have hboth := of_decide_eq_true (some.inj hrun)
  refine (h.2 S₁ h₁).2 S₂ h₂ 0x100000 1 (by decide) 2 (by decide) (by decide) ?_ ?_
  · exact ⟨.L2, by decide, .E, .inr rfl, hboth.1⟩
  · exact ⟨.L2, .E, by decide, hboth.2⟩

end EnocGem5.Coherence.ENoC
