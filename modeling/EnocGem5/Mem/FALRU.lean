import EnocGem5.Lib.Run

/-!
# FALRU — the tags of a fully associative cache

The blocks stand in the order of their last use, and `tagHash` gives the block of an address. A
victim is taken out of `tagHash` under its tag, and a hit asserts that the tag is the address. No
function writes the tag of a block, since `insertBlock` is empty, so all tags stay 0: the store
finds what it should as long as only address 0 is allocated.
-/

namespace EnocGem5.Mem

open Lib Function Option

structure FALRUBlk where
  tag : ℕ := 0
  isValid : Bool := false
  inCache : BitVec 32 := 0

/-- A block is its index in `blks`. -/
structure FALRU where
  blkSize : ℕ
  numCaches : ℕ
  cacheMask : BitVec 32
  blks : ℕ → FALRUBlk
  /-- The blocks from `head` to `tail`. -/
  order : List ℕ
  cacheBoundaries : ℕ → Option ℕ := fun _ => none
  tagHash : ℕ → Option ℕ := fun _ => none

namespace FALRU

variable (F : FALRU)

def blkAlign (addr : ℕ) : ℕ := addr / F.blkSize * F.blkSize

def setInCache (b : ℕ) (flags : BitVec 32) : FALRU :=
  { F with blks := update F.blks b { F.blks b with inCache := flags } }

def setValid (b : ℕ) (valid : Bool) : FALRU :=
  { F with blks := update F.blks b { F.blks b with isValid := valid } }

/-! ## Construction -/

/-- The variables of the constructor's loop. -/
structure Building where
  tags : FALRU
  index : ℕ
  j : ℕ
  flags : BitVec 32

/-- The loop's body, for a block that is neither the head nor the tail. -/
def Building.block (B : Building) (i : ℕ) : Building :=
  let F := B.tags.setInCache i B.flags
  if i + 1 = B.index then
    { tags := { F with cacheBoundaries := update F.cacheBoundaries B.j (some i) }
      index := B.index <<< 1
      j := B.j + 1
      flags := B.flags &&& ~~~(1#32 <<< B.j) }
  else { B with tags := F }

def create (size blkSize : ℕ) : FALRU :=
  let numCaches := Nat.log2 size - 17
  let cacheMask := BitVec.ofNat 32 (2 ^ numCaches - 1)
  let numBlocks := size / blkSize
  let F : FALRU :=
    { blkSize := blkSize
      numCaches := numCaches
      cacheMask := cacheMask
      blks := update (fun _ => {}) 0 { inCache := cacheMask }
      order := List.range numBlocks }
  ((List.range' 1 (numBlocks - 2)).foldl Building.block ⟨F, 2 ^ 17 / blkSize, 0, cacheMask⟩).tags

/-! ## Calls -/

def prev (b : ℕ) : Option ℕ := (F.order.takeWhile (· ≠ b)).getLast?

/-- The body of the loop of `moveToHead`, which follows the pointer to a boundary. -/
def moveBoundary (b : ℕ) (updateMask : BitVec 32) (F : FALRU) (i : ℕ) : Option FALRU :=
  if 1#32 <<< i &&& updateMask ≠ 0 then
    (F.cacheBoundaries i).map fun c =>
      { F.setInCache c ((F.blks c).inCache &&& ~~~(1#32 <<< i)) with
        cacheBoundaries := update F.cacheBoundaries i (F.prev c) }
  else if F.cacheBoundaries i = some b then
    some { F with cacheBoundaries := update F.cacheBoundaries i (F.prev b) }
  else some F

def moveToHead (b : ℕ) : Option FALRU :=
  ((List.range F.numCaches).foldlM (moveBoundary b ((F.blks b).inCache ^^^ F.cacheMask)) F).map
      fun G =>
    { G.setInCache b G.cacheMask with order := b :: G.order.erase b }

def hashLookup (addr : ℕ) : Option ℕ := F.tagHash addr

def findBlock (addr : ℕ) : Option (Option ℕ) :=
  match F.hashLookup (F.blkAlign addr) with
  | some b =>
    if (F.blks b).isValid = true then
      if (F.blks b).tag = F.blkAlign addr then some (some b) else none
    else some none
  | none => some none

/-- `accessBlock` looks the block up as `findBlock` does. -/
def accessBlock (addr : ℕ) : Option (FALRU × Option ℕ) :=
  (F.findBlock addr).bind fun blk =>
    match blk with
    | some b => (if F.order.head? = some b then some F else F.moveToHead b).map (·, some b)
    | none => some (F, none)

def findVictim (addr : ℕ) : Option (FALRU × ℕ) :=
  F.order.getLast?.bind fun b =>
    if (F.blks b).inCache = 0 then
      (F.moveToHead b).map fun G =>
        ({ G with
          tagHash := update (update G.tagHash (G.blks b).tag none) (G.blkAlign addr) (some b) }, b)
    else none

def insertBlock (_addr _b : ℕ) : FALRU := F

variable {F} {G : FALRU} {b addr : ℕ}

/-! ## What the calls keep -/

/-- Apart from the order and the boundaries nothing changes. -/
structure Moved (F G : FALRU) : Prop where
  blkSize : G.blkSize = F.blkSize
  tagHash : G.tagHash = F.tagHash
  tag : ∀ c, (G.blks c).tag = (F.blks c).tag
  isValid : ∀ c, (G.blks c).isValid = (F.blks c).isValid

theorem Moved.refl (F : FALRU) : Moved F F := ⟨rfl, rfl, fun _ => rfl, fun _ => rfl⟩

theorem Moved.trans {K : FALRU} (h : Moved F G) (h' : Moved G K) : Moved F K :=
  ⟨h'.blkSize.trans h.blkSize, h'.tagHash.trans h.tagHash, fun c => (h'.tag c).trans (h.tag c),
    fun c => (h'.isValid c).trans (h.isValid c)⟩

/-- A field that an update keeps at `b` is kept everywhere. -/
theorem update_field {α : Type} (field : FALRUBlk → α) {blks : ℕ → FALRUBlk} {x : FALRUBlk}
    (h : field x = field (blks b)) (c : ℕ) : field (update blks b x c) = field (blks c) := by
  rw [apply_update fun _ => field, h, update_eq_self]

theorem moved_setInCache (F : FALRU) (b : ℕ) (flags : BitVec 32) : Moved F (F.setInCache b flags) :=
  ⟨rfl, rfl, update_field FALRUBlk.tag rfl, update_field FALRUBlk.isValid rfl⟩

theorem moved_moveBoundary {updateMask : BitVec 32} {i : ℕ}
    (h : moveBoundary b updateMask F i = some G) : Moved F G := by
  unfold moveBoundary at h
  split_ifs at h
  · rcases map_eq_some_iff.1 h with ⟨c, -, rfl⟩
    have hset := moved_setInCache F c ((F.blks c).inCache &&& ~~~(1#32 <<< i))
    exact { hset with }
  all_goals
    cases h
    exact ⟨rfl, rfl, fun _ => rfl, fun _ => rfl⟩

theorem moveToHead_spec (h : F.moveToHead b = some G) : Moved F G ∧ G.order.head? = some b := by
  rcases map_eq_some_iff.1 h with ⟨K, hloop, rfl⟩
  have hK : Moved F K :=
    foldlM_invariant (fun _ _ _ _ hK hK' => Moved.trans hK (moved_moveBoundary hK')) (.refl F) hloop
  have hset := hK.trans (moved_setInCache K b K.cacheMask)
  exact ⟨{ hset with }, rfl⟩

theorem moved_accessBlock {blk : Option ℕ} (h : F.accessBlock addr = some (G, blk)) :
    Moved F G := by
  rcases bind_eq_some_iff.1 h with ⟨found, -, h⟩
  cases found with
  | none =>
    cases h
    exact .refl F
  | some b =>
    rcases map_eq_some_iff.1 h with ⟨K, hK, heq⟩
    cases heq
    split_ifs at hK
    · cases hK
      exact .refl F
    · exact (moveToHead_spec hK).1

theorem findBlock_eq_none (hb : F.tagHash (F.blkAlign addr) = some b)
    (hvalid : (F.blks b).isValid = true) (htag : (F.blks b).tag ≠ F.blkAlign addr) :
    F.findBlock addr = none := by
  rw [findBlock, hashLookup, hb]
  dsimp only
  rw [if_pos hvalid, if_neg htag]

theorem create_empty (size blkSize : ℕ) :
    (create size blkSize).tagHash = (fun _ => none) ∧
    ∀ b, ((create size blkSize).blks b).tag = 0 := by
  have hstep : ∀ (B : Building) (i : ℕ), Moved B.tags (B.block i).tags := by
    intro B i
    have hset := moved_setInCache B.tags i B.flags
    unfold Building.block
    split
    · exact { hset with }
    · exact hset
  have hloop : ∀ (is : List ℕ) (B : Building), Moved B.tags (is.foldl Building.block B).tags := by
    intro is
    induction is with
    | nil => exact fun B => .refl B.tags
    | cons i is ih => exact fun B => (hstep B i).trans (ih (B.block i))
  exact ⟨(hloop _ _).tagHash, fun b =>
    ((hloop _ _).tag b).trans (update_field FALRUBlk.tag (by rfl) b)⟩

end FALRU

/-! ## Runs -/

inductive FALRUCall
  /-- `findVictim`, `insertBlock`, and the block becomes valid. -/
  | allocate (addr : ℕ)
  | access (addr : ℕ)
  | invalidate (b : ℕ)

structure FALRUSession where
  tags : FALRU
  /-- The block last allocated for a block address, unless it has been invalidated or chosen as a
  victim since. -/
  owner : ℕ → Option ℕ := fun _ => none

namespace FALRUSession

variable (S : FALRUSession)

def start (size blkSize : ℕ) : FALRUSession := { tags := FALRU.create size blkSize }

def disown (b a : ℕ) : Option ℕ := (S.owner a).filter (· ≠ b)

def step : FALRUCall → Option FALRUSession
  | .allocate addr => (S.tags.findVictim addr).map fun r =>
    { tags := (r.1.insertBlock addr r.2).setValid r.2 true
      owner := update (S.disown r.2) (S.tags.blkAlign addr) (some r.2) }
  | .access addr => (S.tags.accessBlock addr).map fun r => { S with tags := r.1 }
  | .invalidate b => some { tags := S.tags.setValid b false, owner := S.disown b }

/-- Both look-ups return the block of each address, and no assertion fails. -/
def Exact : Prop := ∀ addr, S.tags.findBlock addr = some (S.owner (S.tags.blkAlign addr)) ∧
  (S.tags.accessBlock addr).map Prod.snd = some (S.owner (S.tags.blkAlign addr))

/-- What is allocated is the block at address 0. -/
def AtZero : FALRUCall → Prop
  | .allocate addr => S.tags.blkAlign addr = 0
  | _ => True

/-- Nothing but address 0 has been allocated. -/
structure Zero : Prop where
  tag : ∀ b, (S.tags.blks b).tag = 0
  others : ∀ a, a ≠ 0 → S.tags.tagHash a = none ∧ S.owner a = none
  zero : S.owner 0 = (S.tags.tagHash 0).filter fun b => (S.tags.blks b).isValid
  head : ∀ b, S.tags.tagHash 0 = some b → S.tags.order.head? = some b

variable {S} {S' : FALRUSession} {c : FALRUCall}

theorem Zero.findBlock (h : S.Zero) (addr : ℕ) :
    S.tags.findBlock addr = some (S.owner (S.tags.blkAlign addr)) := by
  unfold FALRU.findBlock FALRU.hashLookup
  by_cases ha : S.tags.blkAlign addr = 0
  · rw [ha, h.zero]
    cases S.tags.tagHash 0 with
    | none => rfl
    | some b => cases hvalid : (S.tags.blks b).isValid <;> simp [Option.filter, h.tag b, hvalid]
  · rw [(h.others _ ha).1, (h.others _ ha).2]

/-- The block that is found is the one at the head. -/
theorem Zero.accessBlock (h : S.Zero) (addr : ℕ) :
    S.tags.accessBlock addr = some (S.tags, S.owner (S.tags.blkAlign addr)) := by
  unfold FALRU.accessBlock
  rw [h.findBlock addr, bind_some]
  cases howner : S.owner (S.tags.blkAlign addr) with
  | none => rfl
  | some b =>
    have ha : S.tags.blkAlign addr = 0 := by
      by_contra ha
      cases howner.symm.trans (h.others _ ha).2
    rw [ha, h.zero, filter_eq_some_iff] at howner
    dsimp only
    rw [if_pos (h.head b howner.1)]
    rfl

theorem Zero.exact (h : S.Zero) : S.Exact := fun addr =>
  ⟨h.findBlock addr, congrArg (Option.map Prod.snd) (h.accessBlock addr)⟩

/-- The victim goes to the head and is valid, it loses the key of its tag and gets the new one. -/
theorem step_allocate {addr : ℕ} (hstep : S.step (.allocate addr) = some S') :
    ∃ K b, S.tags.Moved K ∧ K.order.head? = some b ∧ S' =
      { tags := { K with
          blks := update K.blks b { K.blks b with isValid := true }
          tagHash := update (update S.tags.tagHash (S.tags.blks b).tag none) (S.tags.blkAlign addr)
            (some b) }
        owner := update (S.disown b) (S.tags.blkAlign addr) (some b) } := by
  rcases map_eq_some_iff.1 hstep with ⟨⟨G, b⟩, hvictim, rfl⟩
  rcases bind_eq_some_iff.1 hvictim with ⟨c, -, hvictim⟩
  rcases ite_none_right_eq_some.1 hvictim with ⟨-, hvictim⟩
  rcases map_eq_some_iff.1 hvictim with ⟨K, hmove, heq⟩
  cases heq
  rcases FALRU.moveToHead_spec hmove with ⟨hK, hhead⟩
  refine ⟨K, b, hK, hhead, ?_⟩
  rw [hK.tagHash, hK.tag, FALRU.blkAlign, hK.blkSize]
  rfl

theorem tag_step (h : ∀ b, (S.tags.blks b).tag = 0) (hstep : S.step c = some S') (b : ℕ) :
    (S'.tags.blks b).tag = 0 := by
  cases c with
  | allocate addr =>
    rcases step_allocate hstep with ⟨K, v, hK, -, rfl⟩
    exact (FALRU.update_field FALRUBlk.tag (by rfl) b).trans ((hK.tag b).trans (h b))
  | access addr =>
    rcases map_eq_some_iff.1 hstep with ⟨⟨G, blk⟩, hr, rfl⟩
    exact ((FALRU.moved_accessBlock hr).tag b).trans (h b)
  | invalidate v =>
    cases hstep
    exact (FALRU.update_field FALRUBlk.tag (by rfl) b).trans (h b)

theorem Zero.step (h : S.Zero) (hzero : S.AtZero c) (hstep : S.step c = some S') : S'.Zero := by
  have htag := tag_step h.tag hstep
  cases c with
  | allocate addr =>
    rcases step_allocate hstep with ⟨K, b, _, hhead, rfl⟩
    have haddr : S.tags.blkAlign addr = 0 := hzero
    rw [haddr, h.tag b] at htag ⊢
    refine ⟨htag, fun a ha => ?_, ?_, fun c hc => ?_⟩ <;> dsimp only at *
    · rw [update_of_ne ha, update_of_ne ha, update_of_ne ha, disown, (h.others a ha).1,
        (h.others a ha).2]
      exact ⟨rfl, rfl⟩
    · simp [Option.filter]
    · cases hc
      exact hhead
  | access addr =>
    rcases map_eq_some_iff.1 hstep with ⟨r, hr, rfl⟩
    rw [h.accessBlock addr] at hr
    cases hr
    exact h
  | invalidate b =>
    cases hstep
    refine ⟨htag, fun a ha => ⟨(h.others a ha).1, ?_⟩, ?_, h.head⟩
    · change (S.owner a).filter _ = none
      rw [(h.others a ha).2]
      rfl
    · change (S.owner 0).filter _ = (S.tags.tagHash 0).filter fun c =>
        (update S.tags.blks b _ c).isValid
      rw [h.zero]
      cases S.tags.tagHash 0 with
      | none => rfl
      | some c =>
        by_cases hc : c = b
        · subst hc
          cases hvalid : (S.tags.blks c).isValid <;> simp [Option.filter, hvalid]
        · cases hvalid : (S.tags.blks c).isValid <;> simp [Option.filter, hvalid, hc]

/-- The assertion fails in the first look-up of another address. -/
theorem atZero_of_exact (h : ∀ b, (S.tags.blks b).tag = 0) (hstep : S.step c = some S')
    (hexact : S'.Exact) : S.AtZero c := by
  cases c with
  | access addr => trivial
  | invalidate b => trivial
  | allocate addr =>
    have htag := tag_step h hstep
    rcases step_allocate hstep with ⟨K, b, hK, -, rfl⟩
    have halign : K.blkAlign addr = S.tags.blkAlign addr :=
      congrArg (fun n => addr / n * n) hK.blkSize
    by_contra hne
    have hnone := (hexact addr).1
    rw [FALRU.findBlock_eq_none (b := b) ?_ ?_ ?_] at hnone
    · cases hnone
    · exact (congrArg (update _ _ _) halign).trans (update_self ..)
    · dsimp only
      rw [update_self]
    · rw [htag b]
      exact fun hzero => hne (halign.symm.trans hzero.symm)

/-- The look-ups are exact in all states of a run exactly when nothing but the block at address 0 is
allocated in it. -/
theorem exact_iff_atZero (size blkSize : ℕ) (calls : List FALRUCall) :
    Always step Exact (start size blkSize) calls ↔
    Throughout step AtZero (start size blkSize) calls := by
  rcases FALRU.create_empty size blkSize with ⟨hhash, htag⟩
  constructor
  · exact Throughout.of_always (fun _ _ _ => tag_step) (fun _ _ _ => atZero_of_exact) htag
  · have hzero : (start size blkSize).Zero := by
      refine ⟨htag, fun a _ => ⟨congrFun hhash a, rfl⟩, ?_, fun b hb => ?_⟩
      · change none = Option.filter _ ((FALRU.create size blkSize).tagHash 0)
        rw [hhash]
        rfl
      · cases (congrFun hhash 0).symm.trans hb
    exact Always.of_throughout (fun _ h => h.exact) (fun _ _ _ h hc hstep => h.step hc hstep) hzero

/-- A store of four blocks. The second allocation takes the key of the first block away, and the
look-up of the second block fails. -/
theorem key_lost :
    ∃ S, [FALRUCall.allocate 0, .allocate 65536].foldlM step (start (2 ^ 18) (2 ^ 16)) = some S ∧
      S.owner 0 = some 3 ∧ S.tags.findBlock 0 = some none ∧
      S.owner 65536 = some 2 ∧ S.tags.findBlock 65536 = none :=
  ⟨_, rfl, by decide, by decide, by decide, by decide⟩

end FALRUSession
end EnocGem5.Mem
