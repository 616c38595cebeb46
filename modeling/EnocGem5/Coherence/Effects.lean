import EnocGem5.Lib.Run
import EnocGem5.Coherence.Directory

/-!
# Effects — what the cache accesses do to the copies

`copies` is the state of every tag in every set of every cache. Each access writes the copies of one
key at most; all others stay, or are lost because their way was taken. `Changes W S S'` says this of
a sequence of accesses: outside of `W` every copy is kept or lost.
-/

namespace EnocGem5.Coherence.ENoC

open Mem Noc Lib Option CacheSet Function List

/-- A tag in a set of a node's cache. -/
abbrev Key := Level × ℕ × ℕ × ℤ

/-- Where a node's cache has an address. -/
def keyOf (l : Level) (node addr : ℕ) : Key := (l, node, l.index addr, tagOf addr)

def copies (S : ENoC) (k : Key) : MESI := (S.cache (k.1, k.2.1, k.2.2.1)).copy k.2.2.2

theorem mesi_eq (S : ENoC) (l : Level) (node addr : ℕ) :
    S.mesi l node addr = S.copies (keyOf l node addr) := by
  simp only [mesi, set, copies, keyOf]

/-- No set holds a tag in a valid state twice. -/
def Unambiguous (S : ENoC) : Prop := ∀ x, (S.cache x).Unambiguous

def SameTags (S S' : ENoC) : Prop :=
  ∀ x, (S'.cache x).map CacheLine.tag = (S.cache x).map CacheLine.tag

/-- Outside of `W` every copy is kept or lost. -/
structure Changes (W : Key → Prop) (S S' : ENoC) : Prop where
  unambiguous : S'.Unambiguous
  kept : ∀ k, ¬ W k → S'.copies k = S.copies k ∨ S'.copies k = .I

variable {W : Key → Prop} {S S' S'' : ENoC} {l : Level} {node addr dir index i : ℕ} {x : MESI}
  {pkt : Packet} {time : ℤ}

theorem Changes.trans (h : Changes W S S') (h' : Changes W S' S'') : Changes W S S'' := by
  refine ⟨h'.unambiguous, fun k hk => ?_⟩
  rcases h'.kept k hk with hk' | hk'
  · rw [hk']
    exact h.kept k hk
  · exact .inr hk'

theorem Changes.lost {k : Key} (h : Changes (fun _ => False) S S') (hk : S.copies k = .I) :
    S'.copies k = .I := by
  rcases h.kept k id with hkept | hlost
  · exact hkept.trans hk
  · exact hlost

theorem Changes.mono {V : Key → Prop} (h : Changes W S S') (hWV : ∀ k, W k → V k) :
    Changes V S S' :=
  ⟨h.unambiguous, fun k hk => h.kept k fun hW => hk (hWV k hW)⟩

theorem changes_of_cache (hS : S.Unambiguous) (h : S'.cache = S.cache) : Changes W S S' := by
  refine ⟨fun x => h ▸ hS x, fun k _ => .inl ?_⟩
  rw [copies, copies, h]

theorem Changes.refl (hS : S.Unambiguous) : Changes W S S := changes_of_cache hS rfl

theorem SameTags.refl (S : ENoC) : SameTags S S := fun _ => rfl

theorem SameTags.trans (h : SameTags S S') (h' : SameTags S' S'') : SameTags S S'' :=
  fun x => (h' x).trans (h x)

theorem SameTags.way (h : SameTags S S') (l : Level) (node addr : ℕ) :
    S'.way l node addr = S.way l node addr :=
  checkTag_congr (h _) _

theorem SameTags.present (h : SameTags S S') (l : Level) (node addr : ℕ) :
    S'.present l node addr = S.present l node addr := by
  have hlen : (S'.set l node addr).length = (S.set l node addr).length := by
    have hmap := congrArg length (h (l, node, l.index addr))
    rwa [length_map, length_map] at hmap
  rw [ENoC.present, ENoC.present, h.way, hlen]

theorem present_iff : S.present l node addr = true ↔
    (S.set l node addr).checkTag (tagOf addr) < (S.set l node addr).length :=
  decide_eq_true_iff

theorem absent_iff : S.present l node addr = false ↔
    ¬ (S.set l node addr).checkTag (tagOf addr) < (S.set l node addr).length :=
  decide_eq_false_iff_not

theorem mesi_of_absent (h : S.present l node addr = false) : S.mesi l node addr = .I := by
  apply copy_absent
  intro line hmem
  obtain ⟨i, hi⟩ := getElem?_of_mem hmem
  exact not_tag_of_absent (absent_iff.1 h) hi

variable {s : CacheSet} {ourway w : ℕ}

theorem copies_setSet_apply {kl : Level} {kn ki : ℕ} {σ : ℤ} :
    (S.setSet l node addr s).copies (kl, kn, ki, σ) =
      if (kl, kn, ki) = (l, node, l.index addr) then s.copy σ else S.copies (kl, kn, ki, σ) := by
  simp only [copies, setSet, update_apply]
  split_ifs <;> rfl

theorem unambiguous_setSet (hS : S.Unambiguous) (hs : s.Unambiguous) :
    (S.setSet l node addr s).Unambiguous := by
  intro y
  simp only [setSet, update_apply]
  split_ifs
  · exact hs
  · exact hS y

/-- An access that rewrites one set, in terms of the copies of this set. -/
theorem changes_setSet (hS : S.Unambiguous) (hs : s.Unambiguous)
    (hkept : ∀ σ, ¬ W (l, node, l.index addr, σ) →
      s.copy σ = (S.set l node addr).copy σ ∨ s.copy σ = .I) :
    Changes W S (S.setSet l node addr s) := by
  refine ⟨unambiguous_setSet hS hs, fun ⟨kl, kn, ki, σ⟩ hk => ?_⟩
  rw [copies_setSet_apply]
  split_ifs with hy
  · cases hy
    exact hkept σ hk
  · exact .inl rfl

theorem copies_setSet :
    (S.setSet l node addr s).copies (keyOf l node addr) = s.copy (tagOf addr) := by
  simp [copies_setSet_apply, keyOf]

theorem sameTags_setSet (h : s.map CacheLine.tag = (S.set l node addr).map CacheLine.tag) :
    SameTags S (S.setSet l node addr s) := by
  intro y
  by_cases hy : y = (l, node, l.index addr)
  · simpa [setSet, hy, set] using h
  · simp [setSet, hy]

theorem sameTags_putMESI (S : ENoC) (l : Level) (node addr : ℕ) (x : MESI) :
    SameTags S (S.putMESI l node addr x) := by
  unfold putMESI
  split_ifs
  · exact sameTags_setSet (tags_setMESI _ _ _)
  · exact SameTags.refl S

theorem changes_putMESI (hS : S.Unambiguous) (l : Level) (node addr : ℕ) (x : MESI) :
    Changes (fun k => k = keyOf l node addr ∧ x ≠ .I) S (S.putMESI l node addr x) := by
  unfold putMESI
  split_ifs with hp
  · have hp := present_iff.1 hp
    refine changes_setSet hS (unambiguous_setMESI (hS _) x) fun σ hσ => ?_
    rw [way, copy_setMESI hp]
    by_cases htag : σ = tagOf addr
    · have hx : x = .I := by
        by_contra hx
        exact hσ ⟨by rw [htag]; rfl, hx⟩
      exact .inr (by rw [htag, update_self, hx])
    · exact .inl (update_of_ne htag _ _)
  · exact Changes.refl hS

theorem lines_putMESI (S : ENoC) (l : Level) (node addr : ℕ) (x : MESI) :
    (S.putMESI l node addr x).lines = S.lines := by
  unfold putMESI
  split_ifs <;> rfl

theorem copies_putMESI (hp : S.present l node addr = true) :
    (S.putMESI l node addr x).copies (keyOf l node addr) = x := by
  rw [putMESI, if_pos hp, copies_setSet, way, copy_setMESI (present_iff.1 hp), update_self]

/-- Whether the tag exists or not, invalidating it leaves no copy. -/
theorem copies_putMESI_I : (S.putMESI l node addr .I).copies (keyOf l node addr) = .I := by
  cases hp : S.present l node addr with
  | true => exact copies_putMESI hp
  | false =>
    have hsame : S.putMESI l node addr .I = S := if_neg (by simp [hp])
    rw [hsame, ← mesi_eq]
    exact mesi_of_absent hp

theorem copies_updateLRU (h : S.updateLRU l node addr ourway = some S') : S'.copies = S.copies := by
  obtain ⟨s, hs, rfl⟩ := map_eq_some_iff.1 h
  funext ⟨kl, kn, ki, σ⟩
  rw [copies_setSet_apply]
  split_ifs with hy
  · cases hy
    exact congrFun (updateLRU_sameLines hs).copy σ
  · rfl

theorem updateLRU_effect (hS : S.Unambiguous) (h : S.updateLRU l node addr ourway = some S') :
    Changes W S S' ∧ SameTags S S' := by
  have hcopies := copies_updateLRU h
  obtain ⟨s, hs, rfl⟩ := map_eq_some_iff.1 h
  have hlines := updateLRU_sameLines hs
  refine ⟨⟨unambiguous_setSet hS (hlines.unambiguous (hS _)), fun k _ => .inl (congrFun hcopies k)⟩,
    ?_⟩
  exact sameTags_setSet hlines.tags

theorem updateLRU_lt {s' : CacheSet} (h : s.updateLRU w = some s') : w < s.length := by
  unfold CacheSet.updateLRU at h
  split at h
  · cases h
  · next line hline => exact (List.getElem?_eq_some_iff.1 hline).1

theorem set_setSet : (S.setSet l node addr s).set l node addr = s := by
  simp [setSet, set]

/-- A way claimed for an absent tag holds it; nothing but the tag it held before is lost. -/
theorem claim_effect (hS : S.Unambiguous) (habsent : S.present l node addr = false)
    (hw : w < (S.set l node addr).length)
    (hS' : S' = S.setSet l node addr ((S.set l node addr).setTag w (tagOf addr))) :
    Changes (· = keyOf l node addr) S S' ∧ S'.present l node addr = true ∧
      S'.way l node addr = w := by
  subst hS'
  have habsent := absent_iff.1 habsent
  have hway := checkTag_setTag habsent hw
  refine ⟨changes_setSet hS (unambiguous_setTag (hS _) habsent) fun σ hσ => ?_, ?_, ?_⟩
  · refine copy_setTag (hS _) fun htag => hσ ?_
    rw [htag]
    rfl
  · rw [present_iff, set_setSet, hway, length_setTag]
    exact hw
  · rw [way, set_setSet, hway]

theorem finishWrite_effect (hS : S.Unambiguous) (hp : S.present l node addr = true)
    (hway : S.way l node addr = w) (h : S.finishWrite l node addr w x = some S') :
    Changes (· = keyOf l node addr) S S' ∧ S'.copies (keyOf l node addr) = x := by
  obtain ⟨R, hR, hrest⟩ := bind_eq_some_iff.1 h
  obtain ⟨hchanges, htags⟩ := updateLRU_effect (W := (· = keyOf l node addr)) hS hR
  have hpR : R.present l node addr = true := (htags.present l node addr).trans hp
  have hput : S' = R.putMESI l node addr x := by
    rw [← some.inj hrest, putMESI, if_pos hpR, htags.way, hway]
  subst hput
  refine ⟨hchanges.trans ?_, copies_putMESI hpR⟩
  exact (changes_putMESI hchanges.unambiguous l node addr x).mono fun _ hk => hk.1

theorem allocate_effect (hS : S.Unambiguous) (h : S.allocate l node addr = some (S', w)) :
    Changes (· = keyOf l node addr) S S' ∧ S'.present l node addr = true ∧
      S'.way l node addr = w ∧ S'.lines = S.lines := by
  unfold allocate at h
  cases hp : S.present l node addr with
  | true =>
    rw [hp, if_pos rfl] at h
    cases h
    exact ⟨Changes.refl hS, hp, rfl, rfl⟩
  | false =>
    simp only [hp, Bool.false_eq_true, if_false] at h
    split_ifs at h with hlt
    cases h
    obtain ⟨hchanges, hpresent, hway⟩ := claim_effect hS hp hlt rfl
    exact ⟨hchanges, hpresent, hway, rfl⟩

/-- `fill` for an absent tag is the claim of a way and a write to it. -/
theorem fill_effect (hS : S.Unambiguous) (habsent : S.present l node addr = false)
    (h : S.fill l node addr x = some S') :
    Changes (· = keyOf l node addr) S S' ∧ S'.copies (keyOf l node addr) = x := by
  obtain ⟨R, hR, hrest⟩ := bind_eq_some_iff.1 h
  obtain ⟨hchanges, htags⟩ := updateLRU_effect (W := (· = keyOf l node addr)) hS hR
  have hpR : R.present l node addr = false := (htags.present l node addr).trans habsent
  have hlt : (S.set l node addr).checkLRU < (R.set l node addr).length := by
    obtain ⟨s, hs, rfl⟩ := map_eq_some_iff.1 hR
    rw [set_setSet, (updateLRU_sameLines hs).length]
    exact updateLRU_lt hs
  obtain ⟨hclaim, hpresent, hway⟩ := claim_effect hchanges.unambiguous hpR hlt rfl
  have hput : S' = (R.setSet l node addr ((R.set l node addr).setTag
      (S.set l node addr).checkLRU (tagOf addr))).putMESI l node addr x := by
    rw [← some.inj hrest, putMESI, if_pos hpresent, hway, set_setSet]
    simp [setSet]
  subst hput
  refine ⟨(hchanges.trans hclaim).trans ?_, copies_putMESI hpresent⟩
  exact (changes_putMESI hclaim.unambiguous l node addr x).mono fun _ hk => hk.1

theorem push_cache {src type : ℕ} {pk : PacketNoC} (h : S.push src type pk = some S') :
    S'.cache = S.cache ∧ S'.lines = S.lines := by
  obtain ⟨tm, _, rfl⟩ := map_eq_some_iff.1 h
  exact ⟨rfl, rfl⟩

/-! ## `invalidatePacket` -/

section Invalidate

theorem column_setColumn {lines : List Row} {c c' : ℕ} (h : c' ≠ c) :
    column (setColumn lines index c x) index c' = column lines index c' := by
  simp only [column, setColumn, getElem?_modify]
  cases lines[index]? with
  | none => rfl
  | some row => simp [h]

variable (hS : S.Unambiguous)
include hS

theorem changes_putMESI_I (l : Level) (node addr : ℕ) : Changes W S (S.putMESI l node addr .I) :=
  (changes_putMESI hS l node addr .I).mono fun _ hk => absurd rfl hk.2

theorem putMESI_all (node addr : ℕ) (hS' : S' =
    ((S.putMESI .L1D node addr .I).putMESI .L1I node addr .I).putMESI .L2 node addr .I) :
    Changes W S S' ∧ SameTags S S' ∧ S'.lines = S.lines ∧
      ∀ l, S'.copies (keyOf l node addr) = .I := by
  subst hS'
  have hD : Changes W S _ := changes_putMESI_I hS .L1D node addr
  have hI : Changes W _ _ := changes_putMESI_I hD.unambiguous .L1I node addr
  have h2 : Changes W _ _ := changes_putMESI_I hI.unambiguous .L2 node addr
  have htags := ((sameTags_putMESI S .L1D node addr .I).trans
    (sameTags_putMESI _ .L1I node addr .I)).trans (sameTags_putMESI _ .L2 node addr .I)
  refine ⟨(hD.trans hI).trans h2, htags, ?_, fun l => ?_⟩
  · simp only [lines_putMESI]
  · -- a copy lost in one of the three writes stays lost in the others
    cases l with
    | L1D =>
      apply (changes_putMESI_I hI.unambiguous .L2 node addr).lost
      apply (changes_putMESI_I hD.unambiguous .L1I node addr).lost
      exact copies_putMESI_I
    | L1I =>
      apply (changes_putMESI_I hI.unambiguous .L2 node addr).lost
      exact copies_putMESI_I
    | L2 => exact copies_putMESI_I

theorem invalidateNode_effect (h : invalidateNode pkt time dir index S i = some S') :
    Changes W S S' ∧ SameTags S S' ∧
      (column S.lines index (i + 1) ≠ MESI.I.bits → ∀ l, S'.copies (keyOf l i pkt.addr) = .I) ∧
      ∀ c, c ≠ i + 1 → column S'.lines index c = column S.lines index c := by
  unfold invalidateNode at h
  split_ifs at h with hcol
  · obtain ⟨R, hR, hrest⟩ := bind_eq_some_iff.1 h
    obtain ⟨hcache, hlines⟩ := push_cache hR
    obtain ⟨hchanges, htags, hlines', hcopies⟩ := putMESI_all (W := W) hS i pkt.addr rfl
    cases hrest
    refine ⟨hchanges.trans (changes_of_cache hchanges.unambiguous hcache), ?_, fun _ l => ?_, ?_⟩
    · exact htags.trans fun x => by simp [setState, hcache]
    · have hl := hcopies l
      rw [copies] at hl ⊢
      simpa [setState, hcache] using hl
    · intro c hc
      rw [setState, column_setColumn hc, hlines, hlines']
  · cases h
    exact ⟨Changes.refl hS, SameTags.refl S, fun hne => absurd hne hcol, fun _ _ => rfl⟩

theorem invalidateLoop_effect {nodes : List ℕ}
    (h : nodes.foldlM (invalidateNode pkt time dir index) S = some S') :
    Changes (fun _ => False) S S' ∧ SameTags S S' ∧
      ∀ m ∈ nodes, column S.lines index (m + 1) ≠ MESI.I.bits →
        ∀ l, S'.copies (keyOf l m pkt.addr) = .I := by
  induction nodes generalizing S with
  | nil =>
    cases h
    exact ⟨Changes.refl hS, SameTags.refl S', forall_mem_nil _⟩
  | cons i nodes ih =>
    obtain ⟨R, hR, hrest⟩ := foldlM_cons_some h
    obtain ⟨hchanges, htags, hlost, hcolumn⟩ := invalidateNode_effect hS hR
    obtain ⟨hchanges', htags', hlost'⟩ := ih hchanges.unambiguous hrest
    refine ⟨hchanges.trans hchanges', htags.trans htags', fun m hm hcol l => ?_⟩
    by_cases hmi : m = i
    · subst hmi
      exact hchanges'.lost (hlost hcol l)
    · refine hlost' m ((mem_cons.1 hm).resolve_left hmi) ?_ l
      rwa [hcolumn (m + 1) (by omega)]

theorem invalidatePacket_effect (h : S.invalidatePacket pkt time dir = some S') :
    Changes (fun _ => False) S S' ∧ SameTags S S' ∧
      ∀ index, findLine S.lines (toInt pkt.addr) = some index → ∀ m < numNodes,
        column S.lines index (m + 1) ≠ MESI.I.bits → ∀ l, S'.copies (keyOf l m pkt.addr) = .I := by
  unfold invalidatePacket at h
  cases hfind : findLine S.lines (toInt pkt.addr) with
  | none =>
    rw [hfind] at h
    cases h
    exact ⟨changes_of_cache hS rfl, fun _ => rfl, fun _ hne => nomatch hne⟩
  | some index =>
    rw [hfind] at h
    obtain ⟨R, hR, hrest⟩ := bind_eq_some_iff.1 h
    obtain ⟨hchanges, htags, hlost⟩ := invalidateLoop_effect hS hR
    cases hrest
    refine ⟨hchanges.trans (changes_of_cache hchanges.unambiguous rfl),
      htags.trans fun _ => rfl, ?_⟩
    intro index' hindex m hm hcol l
    obtain rfl : index = index' := some.inj hindex
    exact hlost m (mem_range.2 hm) hcol l

end Invalidate

/-! ## `receivePacket` -/

/-- The copies of an address at node `i` may become `S`; nothing else changes. -/
structure Downgrades (i addr : ℕ) (S S' : ENoC) : Prop where
  unambiguous : S'.Unambiguous
  copies : ∀ k, S'.copies k = S.copies k ∨ ((∃ l, k = keyOf l i addr) ∧ S'.copies k = .S)
  sameTags : SameTags S S'

theorem Downgrades.trans (h : Downgrades i addr S S') (h' : Downgrades i addr S' S'') :
    Downgrades i addr S S'' := by
  refine ⟨h'.unambiguous, fun k => ?_, h.sameTags.trans h'.sameTags⟩
  rcases h'.copies k with hk | hk
  · rw [hk]
    exact h.copies k
  · exact .inr hk

theorem downgrades_of_copies (hS' : S'.Unambiguous) (h : S'.copies = S.copies)
    (htags : SameTags S S') : Downgrades i addr S S' :=
  ⟨hS', fun k => .inl (congrFun h k), htags⟩

variable (hS : S.Unambiguous)
include hS

theorem refresh_effect (h : S.refresh l node addr x = some S') :
    Changes (· = keyOf l node addr) S S' := by
  unfold refresh at h
  split_ifs at h
  · have hput := (changes_putMESI hS l node addr x).mono fun _ hk => hk.1
    exact hput.trans (updateLRU_effect hput.unambiguous h).1
  · cases h
    exact Changes.refl hS

theorem refreshOrFill_effect (h : S.refreshOrFill l node addr x = some S') :
    Changes (· = keyOf l node addr) S S' := by
  unfold refreshOrFill at h
  split_ifs at h with hp
  · exact refresh_effect hS h
  · exact (fill_effect hS (by simpa using hp) h).1

theorem askMemory_effect (h : S.askMemory pkt time dir = some S') :
    Changes (fun k => k = keyOf (requestLevel pkt) (nodeOf pkt) pkt.addr ∨
      k = keyOf .L2 (nodeOf pkt) pkt.addr) S S' := by
  simp only [askMemory, bind_eq_bind, bind_eq_some_iff] at h
  obtain ⟨Q, hQ, R, hR, P, hP, hrest⟩ := h
  split_ifs at hrest
  have hcache : S'.cache = R.cache := (push_cache hrest).1.trans (push_cache hP).1
  have hL1 := refresh_effect hS hQ
  have hL2 := refreshOrFill_effect hL1.unambiguous hR
  have hboth : Changes (fun k => k = keyOf (requestLevel pkt) (nodeOf pkt) pkt.addr ∨
      k = keyOf .L2 (nodeOf pkt) pkt.addr) S R :=
    (hL1.mono fun _ hk => .inl hk).trans (hL2.mono fun _ hk => .inr hk)
  exact hboth.trans (changes_of_cache hboth.unambiguous hcache)

theorem downgrades_putMESI (l : Level) (i addr : ℕ) :
    Downgrades i addr S (S.putMESI l i addr .S) := by
  refine ⟨(changes_putMESI hS l i addr .S).unambiguous, fun k => ?_, sameTags_putMESI S l i addr .S⟩
  cases hp : S.present l i addr with
  | false =>
    have hsame : S.putMESI l i addr .S = S := if_neg (by simp [hp])
    exact .inl (by rw [hsame])
  | true =>
    by_cases hk : k = keyOf l i addr
    · exact .inr ⟨⟨l, hk⟩, hk ▸ copies_putMESI hp⟩
    · refine .inl ?_
      obtain ⟨kl, kn, ki, σ⟩ := k
      rw [putMESI, if_pos hp, copies_setSet_apply]
      split_ifs with hy
      · cases hy
        have hσ : σ ≠ tagOf addr := fun he => hk (by rw [he]; rfl)
        rw [way, copy_setMESI (present_iff.1 hp), update_of_ne hσ]
        rfl
      · rfl

theorem downgrades_shareL1 (pkt : Packet) (i : ℕ) : Downgrades i pkt.addr S (S.shareL1 pkt i) := by
  have hD := downgrades_putMESI hS .L1D i pkt.addr
  exact hD.trans (downgrades_putMESI hD.unambiguous .L1I i pkt.addr)

theorem downgrades_of_cache (h : S'.cache = S.cache) : Downgrades i addr S S' := by
  refine downgrades_of_copies (fun y => h ▸ hS y) ?_ fun y => by rw [h]
  funext k
  rw [ENoC.copies, ENoC.copies, h]

theorem shareL2_effect (hp : S.present .L2 i pkt.addr = true)
    (h : S.shareL2 pkt time dir i = some S') : Downgrades i pkt.addr S S' := by
  obtain ⟨Q, hQ, hrest⟩ := bind_eq_some_iff.1 h
  have hput := downgrades_putMESI hS .L2 i pkt.addr
  have hp' : (S.putMESI .L2 i pkt.addr .S).present .L2 i pkt.addr = true :=
    (hput.sameTags.present .L2 i pkt.addr).trans hp
  unfold sendSharedData at hQ
  split_ifs at hQ with hptr
  obtain ⟨R, hR, hQ⟩ := bind_eq_some_iff.1 hQ
  -- the tag was found, so `sendSharedData` writes to its way
  rw [refreshOrFill, if_pos hp', refresh, if_pos hp'] at hR
  have hput' := downgrades_putMESI hput.unambiguous .L2 i pkt.addr
  obtain ⟨hchanges, htags⟩ := updateLRU_effect (W := fun _ => False) hput'.unambiguous hR
  have hlru : Downgrades i pkt.addr _ R :=
    downgrades_of_copies hchanges.unambiguous (copies_updateLRU hR) htags
  have hR' := (hput.trans hput').trans hlru
  exact hR'.trans
    (downgrades_of_cache hR'.unambiguous ((push_cache hrest).1.trans (push_cache hQ).1))

omit hS in
theorem lookupLine_cache (S : ENoC) (pkt : Packet) : (S.lookupLine pkt).1.cache = S.cache := by
  unfold lookupLine
  split
  · split
    · split_ifs <;> rfl
    · rfl
  · rfl

end EnocGem5.Coherence.ENoC
